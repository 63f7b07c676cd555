/-
  Fabrika.Lib.Keeps — stateful programs that may refuse, and invariants of their state.

  `Keeps I m Q`: run from a state where `I` holds, a program that answers leaves `I` holding
  and its answer satisfies `Q`. Nothing is said of a run that refuses: its state is dropped.
-/

import Mathlib.Data.List.Basic

namespace Fabrika.Lib

theorem except_bind_eq_ok {ε α β : Type} {x : Except ε α} {f : α → Except ε β} {b : β} :
    x >>= f = .ok b ↔ ∃ a, x = .ok a ∧ f a = .ok b := by
  cases x with
  | error e => exact ⟨fun h => (by cases h), fun ⟨_, h, _⟩ => (by cases h)⟩
  | ok a => exact ⟨fun h => ⟨a, rfl, h⟩, fun ⟨_, h, hf⟩ => by cases h; exact hf⟩

theorem except_forM_eq_ok {ε α : Type} {f : α → Except ε Unit} {xs : List α} {u : Unit} :
    xs.forM f = .ok u ↔ ∀ x ∈ xs, f x = .ok u := by
  induction xs with
  | nil => exact ⟨fun _ _ h => absurd h List.not_mem_nil, fun _ => rfl⟩
  | cons x xs ih =>
    rw [List.forM_eq_forM] at ih
    rw [List.forM_eq_forM, List.forM_cons, except_bind_eq_ok, List.forall_mem_cons, ← ih]
    exact ⟨fun ⟨_, hx, hxs⟩ => ⟨hx, hxs⟩, fun ⟨hx, hxs⟩ => ⟨_, hx, hxs⟩⟩

section
variable {ε α β : Type} {f : α → Except ε β} {xs : List α} {ys : List β} (h : xs.mapM f = .ok ys)
include h

theorem except_mapM_all : ∀ x ∈ xs, ∃ y, f x = .ok y ∧ y ∈ ys := by
  induction xs generalizing ys with
  | nil => simp
  | cons x xs ih =>
    rw [List.mapM_cons] at h
    obtain ⟨y, hy, h⟩ := (except_bind_eq_ok).mp h
    obtain ⟨rest, hrest, h⟩ := (except_bind_eq_ok).mp h
    cases h
    intro x' hx'
    rcases List.mem_cons.mp hx' with rfl | hx'
    · exact ⟨y, hy, List.mem_cons_self⟩
    · obtain ⟨y', hy', hmem⟩ := ih hrest x' hx'
      exact ⟨y', hy', List.mem_cons_of_mem _ hmem⟩

theorem except_mapM_mem : ∀ y ∈ ys, ∃ x ∈ xs, f x = .ok y := by
  induction xs generalizing ys with
  | nil => cases h; simp
  | cons x xs ih =>
    rw [List.mapM_cons] at h
    obtain ⟨y, hy, h⟩ := (except_bind_eq_ok).mp h
    obtain ⟨rest, hrest, h⟩ := (except_bind_eq_ok).mp h
    cases h
    intro z hz
    rcases List.mem_cons.mp hz with rfl | hz
    · exact ⟨x, List.mem_cons_self, hy⟩
    · obtain ⟨x', hx', hf⟩ := ih hrest z hz
      exact ⟨x', List.mem_cons_of_mem _ hx', hf⟩

end

variable {σ ε α β : Type} {I : σ → Prop}

def Keeps (I : σ → Prop) (m : StateT σ (Except ε) α) (Q : α → Prop) : Prop :=
  ∀ s a s', I s → m.run s = .ok (a, s') → I s' ∧ Q a

namespace Keeps

variable {m : StateT σ (Except ε) α} {f : α → StateT σ (Except ε) β} {Q Q' : α → Prop} {R : β → Prop}

theorem pure {a : α} (h : Q a) : Keeps I (Pure.pure a : StateT σ (Except ε) α) Q := by
  intro s a' s' hs hr
  cases hr
  exact ⟨hs, h⟩

theorem bind (hm : Keeps I m Q) (hf : ∀ a, Q a → Keeps I (f a) R) : Keeps I (m >>= f) R := by
  intro s b s' hs hr
  rw [StateT.run_bind] at hr
  obtain ⟨⟨a, s₁⟩, ha, hb⟩ := (except_bind_eq_ok).mp hr
  obtain ⟨hs₁, hq⟩ := hm s a s₁ hs ha
  exact hf a hq s₁ b s' hs₁ hb

theorem throw {e : ε} : Keeps I (MonadExcept.throw e : StateT σ (Except ε) α) Q := by
  intro s a s' _ hr
  cases hr

theorem lift {x : Except ε α} (h : ∀ a, x = .ok a → Q a) : Keeps I (monadLift x : StateT σ (Except ε) α) Q := by
  intro s a s' hs hr
  cases x with
  | error e => cases hr
  | ok a' =>
    cases hr
    exact ⟨hs, h a rfl⟩

theorem mono (hm : Keeps I m Q) (h : ∀ a, Q a → Q' a) : Keeps I m Q' := by
  intro s a s' hs hr
  obtain ⟨hs', hq⟩ := hm s a s' hs hr
  exact ⟨hs', h a hq⟩

/-- The state is read: what the invariant says of it is known of the answer. -/
theorem get : Keeps I (get : StateT σ (Except ε) σ) I := by
  intro s a s' hs hr
  cases hr
  exact ⟨hs, hs⟩

theorem modify {g : σ → σ} (h : ∀ s, I s → I (g s)) :
    Keeps I (modify g : StateT σ (Except ε) PUnit) fun _ => True := by
  intro s a s' hs hr
  cases hr
  exact ⟨h s hs, trivial⟩

end Keeps

end Fabrika.Lib
