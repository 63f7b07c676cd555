/-
  Fabrika.Lib.Agree — two runs of programs over injected services (see `Fabrika.Lib.Effect`).

  `Yields I m P` is total correctness from every log that satisfies `I`: the program answers, `P` holds of
  the answer, and `I` of the log behind it. `Agree I J m n R` runs two programs over logs of their own, one
  kept within `I` and the other within `J`, and relates their answers.
-/

import Fabrika.Lib.Effect

namespace Fabrika.Lib.Logged

variable {ε τ α β γ δ : Type} {I J : List τ → Prop}

def Yields (I : List τ → Prop) (m : Logged ε τ α) (P : α → Prop) : Prop :=
  ∀ log, I log → ∃ a log', m.run log = (.ok a, log') ∧ I log' ∧ P a

variable {a : α} {m : Logged ε τ α} {P : α → Prop} {R : α → β → Prop}

theorem run_bind_of_ok {f : α → Logged ε τ β} {log log' : List τ} (h : m.run log = (.ok a, log')) :
    (m >>= f).run log = (f a).run log' := by
  show Logged.bind m f log = f a log'
  rw [Logged.bind, show m log = (.ok a, log') from h]

theorem yields_pure (h : P a) : Yields I (pure a : Logged ε τ α) P :=
  fun log hlog => ⟨a, log, rfl, hlog, h⟩

theorem yields_bind {f : α → Logged ε τ β} {Q : β → Prop} (hm : Yields I m P) (hf : ∀ a, P a → Yields I (f a) Q) :
    Yields I (m >>= f) Q := by
  intro log hlog
  obtain ⟨a, log', hrun, hlog', ha⟩ := hm log hlog
  obtain ⟨b, log'', hrun', hlog'', hb⟩ := hf a ha log' hlog'
  exact ⟨b, log'', (run_bind_of_ok hrun).trans hrun', hlog'', hb⟩

/-- A service that answers within `P` on every log, and whose logged call keeps `I`. -/
theorem yields_ask {service : List τ → Except ε α} {ev : α → τ} (h : ∀ log, I log → ∃ a, service log = .ok a ∧ P a)
    (hkeeps : ∀ log a, I log → service log = .ok a → I (log ++ [ev a])) : Yields I (ask service ev) P := by
  intro log hlog
  obtain ⟨a, hservice, ha⟩ := h log hlog
  refine ⟨a, log ++ [ev a], ?_, hkeeps log a hlog hservice, ha⟩
  simp only [run, ask, hservice]

theorem yields_tell {ev : τ} {P : Unit → Prop} (h : P ()) (hkeeps : ∀ log, I log → I (log ++ [ev])) :
    Yields I (tell ev : Logged ε τ Unit) P :=
  fun log hlog => ⟨(), log ++ [ev], rfl, hkeeps log hlog, h⟩

theorem yields_mapError {g : ε → ε} (h : Yields I m P) : Yields I (mapError g m) P := by
  intro log hlog
  obtain ⟨a, log', hrun, hlog', ha⟩ := h log hlog
  refine ⟨a, log', ?_, hlog', ha⟩
  have hm : m log = (.ok a, log') := hrun
  simp only [run, mapError, hm]

def Agree (I J : List τ → Prop) (m : Logged ε τ α) (n : Logged ε τ β) (R : α → β → Prop) : Prop :=
  ∀ log log', I log → J log' → ∃ a b, ∃ next next', m.run log = (.ok a, next) ∧ n.run log' = (.ok b, next') ∧ I next ∧
    J next' ∧ R a b

theorem agree_pure {b : β} (h : R a b) : Agree I J (pure a : Logged ε τ α) (pure b : Logged ε τ β) R :=
  fun log log' hlog hlog' => ⟨a, b, log, log', rfl, rfl, hlog, hlog', h⟩

theorem agree_bind {n : Logged ε τ β} {f : α → Logged ε τ γ} {g : β → Logged ε τ δ} {S : γ → δ → Prop} (hm : Agree I J m n R)
    (hf : ∀ a b, R a b → Agree I J (f a) (g b) S) : Agree I J (m >>= f) (n >>= g) S := by
  intro log log' hlog hlog'
  obtain ⟨a, b, next, next', hrun, hrun', hnext, hnext', hab⟩ := hm log log' hlog hlog'
  obtain ⟨c, d, last, last', hthen, hthen', hlast, hlast', hcd⟩ := hf a b hab next next' hnext hnext'
  exact ⟨c, d, last, last', (run_bind_of_ok hrun).trans hthen, (run_bind_of_ok hrun').trans hthen', hlast, hlast', hcd⟩

/-- What each run yields on its own. -/
theorem Yields.agree {n : Logged ε τ β} {Q : β → Prop} (hm : Yields I m P) (hn : Yields J n Q) (h : ∀ a b, P a → Q b → R a b) :
    Agree I J m n R := by
  intro log log' hlog hlog'
  obtain ⟨a, next, hrun, hnext, ha⟩ := hm log hlog
  obtain ⟨b, next', hrun', hnext', hb⟩ := hn log' hlog'
  exact ⟨a, b, next, next', hrun, hrun', hnext, hnext', h a b ha hb⟩

end Fabrika.Lib.Logged
