/-
  Fabrika.Lib.Scan — scanners that read a text piece by piece, and how two of them are compared.

  A rule looks at what is left of the text and answers the piece that starts there, or nothing
  where it refuses the text. A piece names how many elements it takes after its first, so every
  piece moves on. `marks` says of each element read what its piece is; `Walks` says that a rule
  reads the next `n` elements as whole pieces of one sort, which is what a piece of another
  scanner is compared with.
-/

import Mathlib.Data.List.Basic

namespace Fabrika.Lib.Scan

variable {α κ γ : Type*}

structure Piece (κ : Type*) where
  kind : κ
  more : Nat
  deriving DecidableEq

abbrev Rule (α κ : Type*) := α → List α → Option (Piece κ)

/-- The pieces read with the given fuel, each with the elements it takes. -/
def pieces (rule : Rule α κ) : Nat → List α → List (Piece κ × List α)
  | 0, _ => []
  | _ + 1, [] => []
  | fuel + 1, a :: rest =>
    match rule a rest with
    | none => []
    | some p => (p, a :: rest.take p.more) :: pieces rule fuel (rest.drop p.more)

def scan (rule : Rule α κ) (text : List α) : List (Piece κ × List α) := pieces rule text.length text

/-- What the piece of each element read is. -/
def marks (rule : Rule α κ) (f : κ → γ) (text : List α) : List γ :=
  (scan rule text).flatMap fun p => p.2.map fun _ => f p.1.kind

variable {rule : Rule α κ} {f : κ → γ} {a : α} {rest text : List α} {p : Piece κ}

/-! ## One piece after another -/

theorem pieces_of_le {fuel : Nat} (h : text.length ≤ fuel) : pieces rule fuel text = scan rule text := by
  have agree : ∀ (fuel fuel' : Nat) (text : List α), text.length ≤ fuel → text.length ≤ fuel' →
      pieces rule fuel text = pieces rule fuel' text := by
    intro fuel
    induction fuel with
    | zero =>
      intro fuel' text h _
      have hnil : text = [] := List.length_eq_zero_iff.mp (Nat.le_zero.mp h)
      subst hnil
      cases fuel' <;> rfl
    | succ fuel ih =>
      intro fuel' text h h'
      cases text with
      | nil => cases fuel' <;> rfl
      | cons a rest =>
        cases fuel' with
        | zero => simp at h'
        | succ fuel' =>
          simp only [List.length_cons] at h h'
          have hdrop : ∀ n, (rest.drop n).length ≤ rest.length := fun n => by simp
          simp only [pieces]
          cases rule a rest with
          | none => rfl
          | some p =>
            have := hdrop p.more
            dsimp only
            rw [ih fuel' (rest.drop p.more) (by omega) (by omega)]
  exact agree fuel text.length text h (Nat.le_refl _)

@[simp] theorem scan_nil : scan rule [] = [] := rfl

theorem scan_none (h : rule a rest = none) : scan rule (a :: rest) = [] := by
  simp [scan, pieces, h]

theorem scan_cons (h : rule a rest = some p) :
    scan rule (a :: rest) = (p, a :: rest.take p.more) :: scan rule (rest.drop p.more) := by
  have hle : (rest.drop p.more).length ≤ rest.length := by simp
  simp only [scan, List.length_cons, pieces, h]
  rw [pieces_of_le hle, scan]

@[simp] theorem marks_nil : marks rule f [] = [] := rfl

theorem marks_none (h : rule a rest = none) : marks rule f (a :: rest) = [] := by
  simp [marks, scan_none h]

theorem marks_cons (h : rule a rest = some p) :
    marks rule f (a :: rest) = List.replicate (min p.more rest.length + 1) (f p.kind) ++ marks rule f (rest.drop p.more) := by
  simp only [marks, scan_cons h, List.flatMap_cons, List.map_const', List.length_cons, List.length_take]

theorem scan_mem {x : Piece κ × List α} (h : x ∈ scan rule text) :
    ∃ a rest, rule a rest = some x.1 ∧ x.2 = a :: rest.take x.1.more := by
  have upTo : ∀ (fuel : Nat) (text : List α), x ∈ pieces rule fuel text →
      ∃ a rest, rule a rest = some x.1 ∧ x.2 = a :: rest.take x.1.more := by
    intro fuel
    induction fuel with
    | zero => exact fun _ h => nomatch h
    | succ fuel ih =>
      intro text h
      cases text with
      | nil => cases h
      | cons a rest =>
        simp only [pieces] at h
        split at h
        · cases h
        · next p hrule =>
          rcases List.mem_cons.mp h with rfl | h
          · exact ⟨a, rest, hrule, rfl⟩
          · exact ih _ h
  exact upTo _ _ h

/-- A rule that refuses nothing reads the whole text. -/
theorem scan_text (htotal : ∀ a rest, rule a rest ≠ none) (text : List α) : (scan rule text).flatMap (·.2) = text := by
  generalize hn : text.length = n
  induction n using Nat.strongRecOn generalizing text with
  | ind n ih =>
    cases text with
    | nil => rfl
    | cons a rest =>
      cases hrule : rule a rest with
      | none => exact absurd hrule (htotal a rest)
      | some p =>
        rw [scan_cons hrule, List.flatMap_cons, ih (rest.drop p.more).length ?_ _ rfl]
        · simp
        · rw [← hn, List.length_cons, List.length_drop]
          omega

/-- A total rule reads the pieces from one of them on as it reads the text they take. -/
theorem scan_append (htotal : ∀ a rest, rule a rest ≠ none) {read later : List (Piece κ × List α)}
    (h : scan rule text = read ++ later) : scan rule (later.flatMap (·.2)) = later := by
  induction read generalizing text with
  | nil =>
    rw [List.nil_append] at h
    rw [← h, scan_text htotal]
  | cons x read ih =>
    cases text with
    | nil => cases h
    | cons a rest =>
      cases hrule : rule a rest with
      | none => exact absurd hrule (htotal a rest)
      | some p =>
        rw [scan_cons hrule, List.cons_append] at h
        exact ih (List.cons.inj h).2

/-! ## A stretch of whole pieces -/

/-- The rule reads exactly the next `n` elements as pieces whose kinds are `ok`. -/
inductive Walks (rule : Rule α κ) (ok : κ → Prop) : Nat → List α → Prop
  | here {text : List α} : Walks rule ok 0 text
  | step {n : Nat} {a : α} {rest : List α} {p : Piece κ} : rule a rest = some p → p.more ≤ rest.length → ok p.kind →
      Walks rule ok n (rest.drop p.more) → Walks rule ok (p.more + 1 + n) (a :: rest)

variable {ok : κ → Prop} {n m : Nat}

theorem Walks.one (h : rule a rest = some p) (hle : p.more ≤ rest.length) (hok : ok p.kind) :
    Walks rule ok (p.more + 1) (a :: rest) := .step h hle hok .here

theorem Walks.le_length (h : Walks rule ok n text) : n ≤ text.length := by
  induction h with
  | here => exact Nat.zero_le _
  | step _ hle _ _ ih =>
    simp only [List.length_cons, List.length_drop] at ih ⊢
    omega

theorem Walks.scan_eq (h : Walks rule ok n text) :
    ∃ ps, scan rule text = ps ++ scan rule (text.drop n) ∧ (ps.flatMap (·.2)).length = n ∧ ∀ p ∈ ps, ok p.1.kind := by
  induction h with
  | here => exact ⟨[], rfl, rfl, fun _ hp => nomatch hp⟩
  | @step n a rest p hrule hle hok _ ih =>
    obtain ⟨ps, hps, hlen, hall⟩ := ih
    refine ⟨(p, a :: rest.take p.more) :: ps, ?_, ?_, ?_⟩
    · rw [scan_cons hrule, hps, List.drop_drop, List.cons_append]
      rw [show p.more + 1 + n = p.more + n + 1 by omega, List.drop_succ_cons]
    · simp only [List.flatMap_cons, List.length_append, List.length_cons, List.length_take, hlen]
      omega
    · intro q hq
      rcases List.mem_cons.mp hq with rfl | hq
      · exact hok
      · exact hall q hq

theorem Walks.marks_eq {c : γ} (h : Walks rule ok n text) (hf : ∀ k, ok k → f k = c) :
    marks rule f text = List.replicate n c ++ marks rule f (text.drop n) := by
  obtain ⟨ps, hps, hlen, hall⟩ := h.scan_eq
  have key : (ps.flatMap fun p => p.2.map fun _ => f p.1.kind) = List.replicate n c := by
    refine List.eq_replicate_iff.mpr ⟨?_, ?_⟩
    · rw [← hlen]
      simp [List.length_flatMap]
    · intro x hx
      obtain ⟨p, hp, hx⟩ := List.mem_flatMap.mp hx
      obtain ⟨_, _, rfl⟩ := List.mem_map.mp hx
      exact hf _ (hall p hp)
  rw [marks, hps, List.flatMap_append, key, marks]

end Fabrika.Lib.Scan
