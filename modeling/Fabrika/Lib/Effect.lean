/-
  Fabrika.Lib.Effect — programs over injected services.

  A program answers or throws, and every call it makes of a service is logged with the
  service's answer. A service is a function of the log so far, so it may answer anything,
  differently each time, and throw. `Ensures m P` is the partial correctness of a program:
  where it answers, `P` holds of the answer and of the calls it made itself.
-/

import Mathlib.Data.List.Basic

namespace Fabrika.Lib

/-- `ε` is what it throws, `τ` a logged call. -/
def Logged (ε τ α : Type) : Type := List τ → Except ε α × List τ

namespace Logged

variable {ε τ α β : Type}

def run (m : Logged ε τ α) (log : List τ) : Except ε α × List τ := m log

protected def pure (a : α) : Logged ε τ α := fun log => (.ok a, log)

protected def bind (m : Logged ε τ α) (f : α → Logged ε τ β) : Logged ε τ β := fun log =>
  match m log with
  | (.ok a, log') => f a log'
  | (.error e, log') => (.error e, log')

instance : Monad (Logged ε τ) where
  pure := Logged.pure
  bind := Logged.bind

/-- Call a service: its answer is logged, what it throws is thrown. -/
def ask (service : List τ → Except ε α) (ev : α → τ) : Logged ε τ α := fun log =>
  match service log with
  | .ok a => (.ok a, log ++ [ev a])
  | .error e => (.error e, log)

/-- A call whose answer nobody reads. -/
def tell (ev : τ) : Logged ε τ Unit := fun log => (.ok (), log ++ [ev])

def mapError (f : ε → ε) (m : Logged ε τ α) : Logged ε τ α := fun log =>
  match m log with
  | (.ok a, log') => (.ok a, log')
  | (.error e, log') => (.error (f e), log')

/-- Where the program answers, `P` holds of the answer and of the calls it made. -/
def Ensures (m : Logged ε τ α) (P : α → List τ → Prop) : Prop :=
  ∀ log a log', m.run log = (.ok a, log') → ∃ evs, log' = log ++ evs ∧ P a evs

variable {m : Logged ε τ α} {f : α → Logged ε τ β} {P : α → List τ → Prop} {Q : β → List τ → Prop}

theorem ensures_pure {a : α} (h : P a []) : Ensures (pure a : Logged ε τ α) P := by
  intro log a' log' he
  cases he
  exact ⟨[], by simp, h⟩

theorem ensures_bind (hm : Ensures m P) (hf : ∀ a evs, P a evs → Ensures (f a) (fun b evs' => Q b (evs ++ evs'))) :
    Ensures (m >>= f) Q := by
  intro log b log' he
  have hrun : (m >>= f).run log = match m.run log with
      | (.ok a, log₁) => (f a).run log₁
      | (.error e, log₁) => (.error e, log₁) := rfl
  rw [hrun] at he
  cases hr : m.run log with
  | mk answer log₁ =>
    rw [hr] at he
    cases answer with
    | error e => cases he
    | ok a =>
      obtain ⟨evs, rfl, ha⟩ := hm log a log₁ hr
      obtain ⟨evs', rfl, hb⟩ := hf a evs ha _ b log' he
      exact ⟨evs ++ evs', by rw [List.append_assoc], hb⟩

theorem ensures_ask {service : List τ → Except ε α} {ev : α → τ} (h : ∀ a, P a [ev a]) : Ensures (ask service ev) P := by
  intro log a log' he
  have hrun : (ask service ev).run log = match service log with
      | .ok a => (.ok a, log ++ [ev a])
      | .error e => (.error e, log) := rfl
  rw [hrun] at he
  cases hs : service log with
  | error e => rw [hs] at he; cases he
  | ok a' =>
    rw [hs] at he
    cases he
    exact ⟨_, rfl, h a⟩

theorem ensures_tell {ev : τ} {P : Unit → List τ → Prop} (h : P () [ev]) : Ensures (tell ev : Logged ε τ Unit) P := by
  intro log a log' he
  cases he
  exact ⟨_, rfl, h⟩

theorem ensures_mapError {g : ε → ε} (h : Ensures m P) : Ensures (mapError g m) P := by
  intro log a log' he
  have hrun : (mapError g m).run log = match m.run log with
      | (.ok a, log₁) => (.ok a, log₁)
      | (.error e, log₁) => (.error (g e), log₁) := rfl
  rw [hrun] at he
  cases hr : m.run log with
  | mk answer log₁ =>
    rw [hr] at he
    cases answer with
    | error e => cases he
    | ok a' =>
      simp only [Prod.mk.injEq, Except.ok.injEq] at he
      obtain ⟨rfl, rfl⟩ := he
      exact h log a' log₁ hr

theorem Ensures.mono {P' : α → List τ → Prop} (h : Ensures m P) (hp : ∀ a evs, P a evs → P' a evs) : Ensures m P' := by
  intro log a log' he
  obtain ⟨evs, hl, ha⟩ := h log a log' he
  exact ⟨evs, hl, hp a evs ha⟩

end Logged

end Fabrika.Lib
