/-
  Fabrika.Lib.Custody — things that are in one place at a time.

  `held place` is the thing a place holds, and `Used` says which things were ever handed out. A step
  leaves things where they are or takes them away, but for one place: that one may get what another
  place loses, or a thing not used before. So no thing is ever in two places (`Kept`).
-/

import Mathlib.Logic.Basic

namespace Fabrika.Lib.Custody

variable {π γ : Type} {Used Used' : γ → Prop} {held held' : π → Option γ}

structure Kept (Used : γ → Prop) (held : π → Option γ) : Prop where
  unique : ∀ a b thing, held a = some thing → held b = some thing → a = b
  used : ∀ a thing, held a = some thing → Used thing

/-- What one step does: only the target may hold something new. -/
structure Moves (Used Used' : γ → Prop) (held held' : π → Option γ) (target : π) : Prop where
  others : ∀ a thing, a ≠ target → held' a = some thing → held a = some thing
  target : ∀ thing, held' target = some thing → held target = some thing ∨
    (∃ source, held source = some thing ∧ held' source = none) ∨ (¬ Used thing ∧ Used' thing)

theorem Moves.kept {target : π} (h : Moves Used Used' held held' target) (hgrows : ∀ thing, Used thing → Used' thing)
    (hkept : Kept Used held) : Kept Used' held' := by
  have halone : ∀ b thing, b ≠ target → held' b = some thing → held' target ≠ some thing := by
    intro b thing hb hother htarget
    have hold := h.others b thing hb hother
    rcases h.target thing htarget with hsame | ⟨source, hsource, hlost⟩ | ⟨hfresh, -⟩
    · exact hb (hkept.unique b target thing hold hsame)
    · rw [hkept.unique b source thing hold hsource, hlost] at hother
      cases hother
    · exact hfresh (hkept.used b thing hold)
  refine ⟨fun a b thing ha hb => ?_, fun a thing ha => ?_⟩
  · by_cases hat : a = target
    · by_cases hbt : b = target
      · exact hat.trans hbt.symm
      · exact absurd (hat ▸ ha) (halone b thing hbt hb)
    · by_cases hbt : b = target
      · exact absurd (hbt ▸ hb) (halone a thing hat ha)
      · exact hkept.unique a b thing (h.others a thing hat ha) (h.others b thing hbt hb)
  · by_cases hat : a = target
    · subst hat
      rcases h.target thing ha with hsame | ⟨source, hsource, -⟩ | ⟨-, hused⟩
      · exact hgrows thing (hkept.used a thing hsame)
      · exact hgrows thing (hkept.used source thing hsource)
      · exact hused
    · exact hgrows thing (hkept.used a thing (h.others a thing hat ha))

end Fabrika.Lib.Custody
