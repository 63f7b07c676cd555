/-
  Fabrika.Lib.FixedText — texts of decimal fields of fixed width between fixed marks, such as
  ISO dates.

  A form is a list of pieces. What a form reads is what it renders, field by field
  (`readPieces_render`, `readPieces_eq_some`), and rendered texts stand in the order of their
  fields (`render_lt`), because a field's width does not depend on its value.
-/

import Mathlib.Data.List.Induction
import Mathlib.Data.List.Lex
import Mathlib.Tactic.Ring

namespace Fabrika.Lib.FixedText

/-! ## Decimal digits -/

def isDigit (c : Char) : Bool := '0' ≤ c && c ≤ '9'

/-- The number a text of digits spells. -/
def decimal (cs : List Char) : Nat := cs.foldl (fun n c => 10 * n + (c.toNat - '0'.toNat)) 0

/-- The last `width` decimal digits of a number. -/
def digits : Nat → Nat → List Char
  | 0, _ => []
  | width + 1, n => digits width (n / 10) ++ [Nat.digitChar (n % 10)]

@[simp] theorem length_digits (width n : Nat) : (digits width n).length = width := by
  induction width generalizing n with
  | zero => rfl
  | succ width ih => simp [digits, ih]

variable {fields : List Nat}

variable {cs : List Char}

theorem digitChar_spec {n : Nat} (h : n < 10) : isDigit (Nat.digitChar n) = true ∧ (Nat.digitChar n).toNat - '0'.toNat = n := by
  have hall : ∀ n < 10, isDigit (Nat.digitChar n) = true ∧ (Nat.digitChar n).toNat - '0'.toNat = n := by decide
  exact hall n h

theorem digitChar_of_isDigit {c : Char} (h : isDigit c = true) :
    c.toNat - '0'.toNat < 10 ∧ Nat.digitChar (c.toNat - '0'.toNat) = c := by
  simp only [isDigit, Bool.and_eq_true, decide_eq_true_eq] at h
  have hrange : 48 ≤ c.toNat ∧ c.toNat ≤ 57 := h
  have hzero : '0'.toNat = 48 := rfl
  refine ⟨by omega, ?_⟩
  have hall : ∀ n, 48 ≤ n → n ≤ 57 → Nat.digitChar (n - 48) = Char.ofNat n := by
    intro n hle hge
    obtain ⟨k, rfl⟩ : ∃ k, n = 48 + k := ⟨n - 48, by omega⟩
    have hk : ∀ k < 10, Nat.digitChar (48 + k - 48) = Char.ofNat (48 + k) := by decide
    exact hk k (by omega)
  rw [hzero, hall c.toNat hrange.1 hrange.2, Char.ofNat_toNat]

theorem isDigit_of_mem_digits {width n : Nat} : ∀ c ∈ digits width n, isDigit c = true := by
  induction width generalizing n with
  | zero => simp [digits]
  | succ width ih =>
    intro c hc
    rw [digits, List.mem_append, List.mem_singleton] at hc
    rcases hc with hc | rfl
    · exact ih c hc
    · exact (digitChar_spec (Nat.mod_lt n (by decide))).1

theorem decimal_append_singleton (cs : List Char) (c : Char) : decimal (cs ++ [c]) = 10 * decimal cs + (c.toNat - '0'.toNat) := by
  rw [decimal, List.foldl_append]
  rfl

theorem decimal_append (cs ds : List Char) : decimal (cs ++ ds) = decimal cs * 10 ^ ds.length + decimal ds := by
  induction ds using List.reverseRecOn with
  | nil => simp [decimal]
  | append_singleton ds d ih =>
    rw [← List.append_assoc, decimal_append_singleton, decimal_append_singleton, ih, List.length_append,
      List.length_singleton, pow_succ]
    ring

theorem decimal_lt {cs : List Char} (h : ∀ c ∈ cs, isDigit c = true) : decimal cs < 10 ^ cs.length := by
  induction cs using List.reverseRecOn with
  | nil => simp [decimal]
  | append_singleton cs c ih =>
    have hc := (digitChar_of_isDigit (h c (by simp))).1
    have hcs := ih fun d hd => h d (by simp [hd])
    rw [decimal_append_singleton, List.length_append, List.length_singleton, pow_succ]
    omega

theorem decimal_digits (width n : Nat) : decimal (digits width n) = n % 10 ^ width := by
  induction width generalizing n with
  | zero => simp [digits, decimal, Nat.mod_one]
  | succ width ih =>
    rw [digits, decimal_append_singleton, ih, (digitChar_spec (Nat.mod_lt n (by decide))).2, pow_succ,
      Nat.mul_comm (10 ^ width) 10, Nat.mod_mul, Nat.add_comm]

theorem digits_decimal (h : ∀ c ∈ cs, isDigit c = true) : digits cs.length (decimal cs) = cs := by
  induction cs using List.reverseRecOn with
  | nil => rfl
  | append_singleton cs c ih =>
    obtain ⟨hlt, hchar⟩ := digitChar_of_isDigit (h c (by simp))
    have hcs := ih fun d hd => h d (by simp [hd])
    have hdiv : (10 * decimal cs + (c.toNat - '0'.toNat)) / 10 = decimal cs := by omega
    have hmod : (10 * decimal cs + (c.toNat - '0'.toNat)) % 10 = c.toNat - '0'.toNat := by omega
    rw [List.length_append, List.length_singleton, digits, decimal_append_singleton, hdiv, hmod, hcs, hchar]

/-! ## Order -/

/-- Of two texts of one length, the order is decided before what follows them. -/
theorem append_lt_append {α : Type} [LT α] {xs ys : List α} (h : xs < ys) (hlength : xs.length = ys.length) (us vs : List α) :
    xs ++ us < ys ++ vs := by
  induction xs generalizing ys with
  | nil =>
    rw [List.length_nil] at hlength
    rw [List.length_eq_zero_iff.mp hlength.symm] at h
    exact absurd h (List.not_lt_nil [])
  | cons x xs ih =>
    cases ys with
    | nil => cases hlength
    | cons y ys =>
      rw [List.length_cons, List.length_cons, Nat.add_right_cancel_iff] at hlength
      rw [List.cons_append, List.cons_append, List.cons_lt_cons_iff]
      exact (List.cons_lt_cons_iff.mp h).imp id fun ⟨heq, hlt⟩ => ⟨heq, ih hlt hlength⟩

/-- Digits of one width stand in the order of their numbers. -/
theorem digits_lt {width m n : Nat} (h : m < n) (hn : n < 10 ^ width) : digits width m < digits width n := by
  induction width generalizing m n with
  | zero =>
    rw [pow_zero] at hn
    omega
  | succ width ih =>
    rw [digits, digits]
    rw [pow_succ] at hn
    by_cases hhigh : m / 10 < n / 10
    · apply append_lt_append (ih hhigh (by omega))
      rw [length_digits, length_digits]
    · have hequal : m / 10 = n / 10 := by omega
      have hchar : ∀ i < 10, ∀ j < 10, i < j → Nat.digitChar i < Nat.digitChar j := by decide
      rw [hequal]
      apply List.append_left_lt
      rw [List.cons_lt_cons_iff]
      exact .inl (hchar _ (Nat.mod_lt m (by decide)) _ (Nat.mod_lt n (by decide)) (by omega))

/-! ## Forms -/

inductive Piece
  | field (width : Nat)
  | mark (c : Char)

/-- The fields of a form at the start of a text, and the text after it. -/
def readPieces : List Piece → List Char → Option (List Nat × List Char)
  | [], cs => some ([], cs)
  | .mark c :: pieces, cs =>
    match cs with
    | d :: rest => if d = c then readPieces pieces rest else none
    | [] => none
  | .field width :: pieces, cs =>
    if width ≤ cs.length ∧ (cs.take width).all isDigit then
      (readPieces pieces (cs.drop width)).map fun (fields, rest) => (decimal (cs.take width) :: fields, rest)
    else none

/-- Whether a text is of a form, and its fields. -/
def readForm (form : List Piece) (cs : List Char) : Option (List Nat) :=
  match readPieces form cs with
  | some (fields, []) => some fields
  | _ => none

def render : List Piece → List Nat → List Char
  | [], _ => []
  | .mark c :: pieces, fields => c :: render pieces fields
  | .field width :: pieces, n :: fields => digits width n ++ render pieces fields
  | .field _ :: _, [] => []

/-- Each field of a form has a number that its width holds. -/
inductive Fits : List Piece → List Nat → Prop
  | nil : Fits [] []
  | mark {c : Char} {pieces : List Piece} {fields : List Nat} : Fits pieces fields → Fits (.mark c :: pieces) fields
  | field {width n : Nat} {pieces : List Piece} {fields : List Nat} :
      n < 10 ^ width → Fits pieces fields → Fits (.field width :: pieces) (n :: fields)

variable {form : List Piece}

theorem readPieces_render (h : Fits form fields) (rest : List Char) :
    readPieces form (render form fields ++ rest) = some (fields, rest) := by
  induction h with
  | nil => rfl
  | mark _ ih => rw [render, List.cons_append, readPieces, if_pos rfl, ih]
  | @field width n pieces fields hn _ ih =>
    have htake : (digits width n ++ render pieces fields ++ rest).take width = digits width n := by
      rw [List.append_assoc, List.take_left' (length_digits width n)]
    have hdrop : (digits width n ++ render pieces fields ++ rest).drop width = render pieces fields ++ rest := by
      rw [List.append_assoc, List.drop_left' (length_digits width n)]
    rw [render, readPieces, htake, hdrop, ih, if_pos]
    · rw [Option.map_some, decimal_digits, Nat.mod_eq_of_lt hn]
    · refine ⟨?_, List.all_eq_true.mpr isDigit_of_mem_digits⟩
      rw [List.append_assoc, List.length_append, length_digits]
      exact Nat.le_add_right _ _

theorem readForm_render (h : Fits form fields) : readForm form (render form fields) = some fields := by
  have hread := readPieces_render h []
  rw [List.append_nil] at hread
  rw [readForm, hread]

theorem readPieces_eq_some {rest : List Char} (h : readPieces form cs = some (fields, rest)) :
    Fits form fields ∧ cs = render form fields ++ rest := by
  induction form generalizing cs fields with
  | nil =>
    cases h
    exact ⟨.nil, rfl⟩
  | cons piece pieces ih =>
    cases piece with
    | mark c =>
      cases cs with
      | nil => cases h
      | cons d cs =>
        rw [readPieces] at h
        split at h
        · next heq =>
          subst heq
          obtain ⟨hfits, rfl⟩ := ih h
          exact ⟨.mark hfits, rfl⟩
        · cases h
    | field width =>
      rw [readPieces] at h
      split at h
      · next hdigits =>
        obtain ⟨hlength, hall⟩ := hdigits
        obtain ⟨⟨others, tail⟩, hrest, heq⟩ := Option.map_eq_some_iff.mp h
        cases heq
        obtain ⟨hfits, hdrop⟩ := ih hrest
        have hmem := List.all_eq_true.mp hall
        have htake : (cs.take width).length = width := List.length_take_of_le hlength
        have hlt := decimal_lt hmem
        have hsame := digits_decimal hmem
        rw [htake] at hlt hsame
        refine ⟨.field hlt hfits, ?_⟩
        rw [render, hsame, List.append_assoc, ← hdrop, List.take_append_drop]
      · cases h

theorem readForm_eq_some : readForm form cs = some fields ↔ Fits form fields ∧ cs = render form fields := by
  constructor
  · intro h
    rw [readForm] at h
    split at h
    · next hread =>
      cases h
      obtain ⟨hfits, heq⟩ := readPieces_eq_some hread
      rw [List.append_nil] at heq
      exact ⟨hfits, heq⟩
    · cases h
  · rintro ⟨hfits, rfl⟩
    exact readForm_render hfits

/-- Texts of one form stand in the order of their fields. -/
theorem render_lt {others : List Nat} (h : Fits form fields) (h' : Fits form others) (hlt : fields < others) :
    render form fields < render form others := by
  induction form generalizing fields others with
  | nil =>
    cases h
    cases h'
    exact absurd hlt (List.not_lt_nil [])
  | cons piece pieces ih =>
    cases piece with
    | mark c =>
      cases h with
      | mark h =>
        cases h' with
        | mark h' =>
          rw [render, render, List.cons_lt_cons_iff]
          exact .inr ⟨rfl, ih h h' hlt⟩
    | field width =>
      cases h with
      | field hn h =>
        cases h' with
        | field hm h' =>
          rw [render, render]
          rcases List.cons_lt_cons_iff.mp hlt with hhead | ⟨rfl, htail⟩
          · apply append_lt_append (digits_lt hhead hm)
            rw [length_digits, length_digits]
          · exact List.append_left_lt (ih h h' htail)

end Fabrika.Lib.FixedText
