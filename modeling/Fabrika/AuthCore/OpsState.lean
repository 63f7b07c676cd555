/-
  Fabrika.AuthCore.OpsState — the maintenance modes, the state an object publishes and the rule
  that refuses a stale transition (auth-core/ops.ts).

  What `opsTransitionRefused` lets pass is a partial order on states, `Follows`: a later
  generation, or the same generation in the same mode.
-/

import Mathlib.Order.Basic

namespace Fabrika.AuthCore.OpsState

/-- `OPS_MODES`, from the most permissive. -/
inductive OpsMode
  | «open»
  | readOnly
  | closed
  | inspect
  deriving DecidableEq

structure OpsPublishedState where
  generation : Nat
  mode : OpsMode
  deriving DecidableEq

/-- A lower generation, or the same with another mode, is stale. -/
def opsTransitionRefused (current : Option OpsPublishedState) (request : OpsPublishedState) : Bool :=
  match current with
  | none => false
  | some current =>
    decide (request.generation < current.generation) ||
      (decide (request.generation = current.generation) && decide (request.mode ≠ current.mode))

/-! ## What passes is an order -/

def Follows (a b : OpsPublishedState) : Prop := a.generation < b.generation ∨ a = b

variable {a b c : OpsPublishedState}

theorem refused_eq_false_iff : opsTransitionRefused (some a) b = false ↔ Follows a b := by
  obtain ⟨g, m⟩ := a
  obtain ⟨g', m'⟩ := b
  simp only [opsTransitionRefused, Follows, Bool.or_eq_false_iff, Bool.and_eq_false_iff, decide_eq_false_iff_not,
    not_not, OpsPublishedState.mk.injEq]
  constructor
  · intro ⟨hle, hmode⟩
    rcases Nat.lt_or_ge g g' with hlt | hge
    · exact .inl hlt
    · have hg : g' = g := by omega
      rcases hmode with hne | hm
      · exact absurd hg hne
      · exact .inr ⟨hg.symm, hm.symm⟩
  · intro h
    rcases h with hlt | ⟨rfl, rfl⟩
    · exact ⟨by omega, .inl (by omega)⟩
    · exact ⟨by omega, .inr rfl⟩

theorem Follows.refl (a : OpsPublishedState) : Follows a a := .inr rfl

theorem Follows.trans (hab : Follows a b) (hbc : Follows b c) : Follows a c := by
  rcases hab with hab | rfl
  · rcases hbc with hbc | rfl
    · exact .inl (Nat.lt_trans hab hbc)
    · exact .inl hab
  · exact hbc

theorem Follows.generation_le (h : Follows a b) : a.generation ≤ b.generation := by
  rcases h with h | rfl
  · exact Nat.le_of_lt h
  · exact Nat.le_refl _

theorem Follows.eq_of_generation_eq (h : Follows a b) (hg : a.generation = b.generation) : a = b := by
  rcases h with h | rfl
  · omega
  · rfl

/-- The state that refuses a request is at a later generation, or at the same in another mode. -/
theorem refused_iff : opsTransitionRefused (some a) b = true ↔
    b.generation < a.generation ∨ (b.generation = a.generation ∧ b.mode ≠ a.mode) := by
  simp only [opsTransitionRefused, Bool.or_eq_true, Bool.and_eq_true, decide_eq_true_eq]

end Fabrika.AuthCore.OpsState
