/-
  Fabrika.Lib.Run — runs of a labelled transition system and the rules to reason about them.

  A run is the events taken from a start state, oldest first, and the state they reach.
  `Run.invariant` carries a state invariant along every run, `Run.history` one that also
  reads the events so far, and `Run.split` cuts a run at any point.
-/

import Mathlib.Data.List.Induction

namespace Fabrika.Lib

variable {σ ε : Type*}

inductive Run (step : σ → ε → σ → Prop) (start : σ) : List ε → σ → Prop
  | nil : Run step start [] start
  | snoc {evs : List ε} {s s' : σ} {ev : ε} : Run step start evs s → step s ev s' → Run step start (evs ++ [ev]) s'

variable {step : σ → ε → σ → Prop} {start s : σ}

variable {evs : List ε}

theorem Run.history {P : List ε → σ → Prop} (h0 : P [] start)
    (hstep : ∀ evs s ev s', P evs s → step s ev s' → P (evs ++ [ev]) s') (h : Run step start evs s) : P evs s := by
  induction h with
  | nil => exact h0
  | snoc _ hs ih => exact hstep _ _ _ _ ih hs

theorem Run.invariant {P : σ → Prop} (h0 : P start) (hstep : ∀ s ev s', P s → step s ev s' → P s') (h : Run step start evs s) :
    P s :=
  h.history (P := fun _ s => P s) h0 (fun _ s ev s' => hstep s ev s')

theorem Run.of_nil (h : Run step start [] s) : s = start := by
  generalize hevs : ([] : List ε) = evs at h
  cases h with
  | nil => rfl
  | snoc _ _ => simp at hevs

theorem Run.of_snoc {ev : ε} (h : Run step start (evs ++ [ev]) s) : ∃ m, Run step start evs m ∧ step m ev s := by
  generalize hevs : evs ++ [ev] = evs' at h
  cases h with
  | nil => simp at hevs
  | snoc hr hs =>
    obtain ⟨rfl, heq⟩ := List.append_inj' hevs rfl
    cases heq
    exact ⟨_, hr, hs⟩

theorem Run.split {a b : List ε} (h : Run step start (a ++ b) s) : ∃ m, Run step start a m ∧ Run step m b s := by
  induction b using List.reverseRecOn generalizing s with
  | nil => exact ⟨s, by simpa using h, .nil⟩
  | append_singleton b ev ih =>
    rw [← List.append_assoc] at h
    obtain ⟨m, hr, hs⟩ := h.of_snoc
    obtain ⟨m', ha, hb⟩ := ih hr
    exact ⟨m', ha, .snoc hb hs⟩

theorem Run.split_cons {ev : ε} {b : List ε} (h : Run step start (ev :: b) s) : ∃ m, step start ev m ∧ Run step m b s := by
  obtain ⟨m, ha, hb⟩ := Run.split (a := [ev]) h
  obtain ⟨m', hn, hs⟩ : ∃ m', Run step start [] m' ∧ step m' ev m := ha.of_snoc
  cases hn.of_nil
  exact ⟨m, hs, hb⟩

end Fabrika.Lib
