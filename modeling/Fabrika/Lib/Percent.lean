/-
  Fabrika.Lib.Percent — percent-decoding, character by character.

  `decodeURIComponent` of `Fabrika.Lib.Text` runs with fuel; `Decodes` says the same as a
  relation (`decodeURIComponent_eq_some`): a text decodes to the characters its escapes
  spell and the others as they are. An escape is made of `%` and hex digits, so it never
  reaches over another character: a text decodes piece by piece at a separator
  (`decodes_sep`). An escape spells a character below U+0080 in one way (`escapedChar_ascii`).
-/

import Fabrika.Lib.Text
import Mathlib.Data.List.Forall2

namespace Fabrika.Lib.Text

/-! ## One escape -/

variable {c : Char} {n octet code code' : Nat} {rest s : List Char}

/-- The spellings of a hex digit, by their code points. -/
theorem hexDigit_eq_some (h : hexDigit c = some n) :
    (c.toNat = 48 + n ∧ n < 10) ∨ (c.toNat = 87 + n ∧ 10 ≤ n ∧ n < 16) ∨ (c.toNat = 55 + n ∧ 10 ≤ n ∧ n < 16) := by
  unfold hexDigit at h
  split at h
  · next hc =>
    cases h
    have hrange : 48 ≤ c.toNat ∧ c.toNat ≤ 57 := hc
    have hzero : '0'.toNat = 48 := rfl
    omega
  · split at h
    · next hc =>
      cases h
      have hrange : 97 ≤ c.toNat ∧ c.toNat ≤ 102 := hc
      have ha : 'a'.toNat = 97 := rfl
      omega
    · split at h
      · next hc =>
        cases h
        have hrange : 65 ≤ c.toNat ∧ c.toNat ≤ 70 := hc
        have ha : 'A'.toNat = 65 := rfl
        omega
      · cases h

theorem hexDigit_ne {d : Char} (h : hexDigit c = some n) (hd : hexDigit d = none) : c ≠ d := by
  rintro rfl
  rw [hd] at h
  cases h

theorem escapedOctet_eq_some : escapedOctet s = some (octet, rest) ↔
    ∃ a b high low, s = '%' :: a :: b :: rest ∧ hexDigit a = some high ∧ hexDigit b = some low ∧ octet = 16 * high + low := by
  constructor
  · intro h
    unfold escapedOctet at h
    split at h
    · next a b tail =>
      cases ha : hexDigit a with
      | none => simp [ha] at h
      | some high =>
        cases hb : hexDigit b with
        | none => simp [ha, hb] at h
        | some low =>
          simp only [ha, hb, Option.bind_eq_bind, Option.bind_some, Option.pure_def, Option.some.injEq, Prod.mk.injEq] at h
          obtain ⟨rfl, rfl⟩ := h
          exact ⟨a, b, high, low, rfl, ha, hb, rfl⟩
    · cases h
  · rintro ⟨a, b, high, low, rfl, ha, hb, rfl⟩
    simp [escapedOctet, ha, hb]

theorem escapedChar_eq_some : escapedChar s = some (c, rest) ↔
    ∃ octet following payload least code mid, escapedOctet s = some (octet, mid) ∧
    leadOctet octet = some (following, payload, least) ∧
      continuationOctets following payload mid = some (code, rest) ∧ least ≤ code ∧ code.isValidChar ∧ c = Char.ofNat code := by
  constructor
  · intro h
    unfold escapedChar at h
    cases hoctet : escapedOctet s with
    | none => simp [hoctet] at h
    | some first =>
      obtain ⟨octet, mid⟩ := first
      cases hlead : leadOctet octet with
      | none => simp [hoctet, hlead] at h
      | some lead =>
        obtain ⟨following, payload, least⟩ := lead
        cases hcont : continuationOctets following payload mid with
        | none => simp [hoctet, hlead, hcont] at h
        | some last =>
          obtain ⟨code, tail⟩ := last
          simp only [hoctet, hlead, hcont, Option.bind_eq_bind, Option.bind_some, Option.ite_none_right_eq_some,
            Option.some.injEq, Prod.mk.injEq] at h
          obtain ⟨⟨hleast, hvalid⟩, rfl, rfl⟩ := h
          exact ⟨octet, following, payload, least, code, mid, rfl, hlead, hcont, hleast, hvalid, rfl⟩
  · rintro ⟨octet, following, payload, least, code, mid, hoctet, hlead, hcont, hleast, hvalid, rfl⟩
    simp [escapedChar, hoctet, hlead, hcont, hleast, hvalid]

theorem continuationOctets_succ :
    continuationOctets (n + 1) code s = some (code', rest) ↔ ∃ octet mid, escapedOctet s = some (octet, mid) ∧ octet / 0x40 = 2 ∧
      continuationOctets n (code * 0x40 + octet % 0x40) mid = some (code', rest) := by
  rw [continuationOctets]
  cases hoctet : escapedOctet s with
  | none => simp
  | some first =>
    obtain ⟨octet, mid⟩ := first
    simp

theorem continuationOctets_suffix (h : continuationOctets n code s = some (code', rest)) : rest <:+ s := by
  induction n generalizing code s with
  | zero =>
    cases h
    exact List.suffix_rfl
  | succ n ih =>
    obtain ⟨octet, mid, hoctet, -, hrest⟩ := (continuationOctets_succ).mp h
    obtain ⟨a, b, high, low, rfl, -⟩ := (escapedOctet_eq_some).mp hoctet
    exact (ih hrest).trans ⟨['%', a, b], rfl⟩

/-- An escape starts with `%` and ends before what is left. -/
theorem escapedChar_suffix (h : escapedChar s = some (c, rest)) : ∃ tail, s = '%' :: tail ∧ rest <:+ tail := by
  obtain ⟨octet, following, payload, least, code, mid, hoctet, -, hcont, -⟩ := (escapedChar_eq_some).mp h
  obtain ⟨a, b, high, low, rfl, -⟩ := (escapedOctet_eq_some).mp hoctet
  exact ⟨a :: b :: mid, rfl, (continuationOctets_suffix hcont).trans ⟨[a, b], rfl⟩⟩

theorem escapedChar_shorter (h : escapedChar s = some (c, rest)) : rest.length < s.length := by
  obtain ⟨tail, rfl, hsuffix⟩ := escapedChar_suffix h
  have hlength := hsuffix.length_le
  rw [List.length_cons]
  omega

/-- A character below U+0080 is spelt by its own octet alone: a longer sequence would be
    overlong. -/
theorem escapedChar_ascii (h : escapedChar s = some (c, rest)) (hc : c.toNat < 0x80) :
    escapedOctet s = some (c.toNat, rest) := by
  obtain ⟨octet, following, payload, least, code, mid, hoctet, hlead, hcont, hleast, hvalid, rfl⟩ := (escapedChar_eq_some).mp h
  have hcode : (Char.ofNat code).toNat = code := by rw [Char.ofNat, dif_pos hvalid]; rfl
  rw [hcode] at hc ⊢
  unfold leadOctet at hlead
  split at hlead
  · cases hlead
    cases hcont
    exact hoctet
  · split at hlead
    · cases hlead
    · exfalso
      repeat' split at hlead
      all_goals first
        | cases hlead
          omega
        | cases hlead

theorem escapedChar_of_ascii {s rest : List Char} {octet : Nat} (h : escapedOctet s = some (octet, rest)) (hc : octet < 0x80) :
    escapedChar s = some (Char.ofNat octet, rest) := by
  rw [escapedChar_eq_some]
  refine ⟨octet, 0, octet, 0, octet, rest, h, if_pos hc, rfl, Nat.zero_le _, .inl (by omega), rfl⟩

/-! ## Escapes and what follows them -/

theorem escapedOctet_append (h : escapedOctet s = some (octet, rest)) (tail : List Char) :
    escapedOctet (s ++ tail) = some (octet, rest ++ tail) := by
  obtain ⟨a, b, high, low, rfl, ha, hb, rfl⟩ := (escapedOctet_eq_some).mp h
  exact (escapedOctet_eq_some).mpr ⟨a, b, high, low, rfl, ha, hb, rfl⟩

theorem continuationOctets_append (h : continuationOctets n code s = some (code', rest)) (tail : List Char) :
    continuationOctets n code (s ++ tail) = some (code', rest ++ tail) := by
  induction n generalizing code s with
  | zero =>
    cases h
    rfl
  | succ n ih =>
    obtain ⟨octet, mid, hoctet, hrange, hrest⟩ := (continuationOctets_succ).mp h
    exact (continuationOctets_succ).mpr ⟨octet, mid ++ tail, escapedOctet_append hoctet tail, hrange, ih hrest⟩

theorem escapedChar_append (h : escapedChar s = some (c, rest)) (tail : List Char) :
    escapedChar (s ++ tail) = some (c, rest ++ tail) := by
  obtain ⟨octet, following, payload, least, code, mid, hoctet, hlead, hcont, hleast, hvalid, rfl⟩ := (escapedChar_eq_some).mp h
  exact (escapedChar_eq_some).mpr ⟨octet, following, payload, least, code, mid ++ tail, escapedOctet_append hoctet tail, hlead,
    continuationOctets_append hcont tail, hleast, hvalid, rfl⟩

section Separator

variable {sep : Char} (hhex : hexDigit sep = none) (hpercent : sep ≠ '%')

include hhex hpercent

theorem escapedOctet_sep {s tail rest : List Char} (h : escapedOctet (s ++ sep :: tail) = some (octet, rest)) :
    ∃ mid, escapedOctet s = some (octet, mid) ∧ rest = mid ++ sep :: tail := by
  obtain ⟨a, b, high, low, heq, ha, hb, rfl⟩ := (escapedOctet_eq_some).mp h
  -- The separator is none of the escape's three characters, so all three lie in `s`.
  match s, heq with
  | [], heq => exact absurd (List.cons.inj heq).1 hpercent
  | [x], heq => exact absurd (List.cons.inj (List.cons.inj heq).2).1.symm (hexDigit_ne ha hhex)
  | [x, y], heq => exact absurd (List.cons.inj (List.cons.inj (List.cons.inj heq).2).2).1.symm (hexDigit_ne hb hhex)
  | x :: y :: z :: mid, heq =>
    simp only [List.cons_append, List.cons.injEq] at heq
    obtain ⟨rfl, rfl, rfl, rfl⟩ := heq
    exact ⟨mid, (escapedOctet_eq_some).mpr ⟨y, z, high, low, rfl, ha, hb, rfl⟩, rfl⟩

theorem continuationOctets_sep {s tail rest : List Char} (h : continuationOctets n code (s ++ sep :: tail) = some (code', rest)) :
    ∃ mid, continuationOctets n code s = some (code', mid) ∧ rest = mid ++ sep :: tail := by
  induction n generalizing code s with
  | zero =>
    cases h
    exact ⟨s, rfl, rfl⟩
  | succ n ih =>
    obtain ⟨octet, next, hoctet, hrange, hrest⟩ := (continuationOctets_succ).mp h
    obtain ⟨mid, hmid, rfl⟩ := escapedOctet_sep hhex hpercent hoctet
    obtain ⟨last, hlast, rfl⟩ := ih hrest
    exact ⟨last, (continuationOctets_succ).mpr ⟨octet, mid, hmid, hrange, hlast⟩, rfl⟩

theorem escapedChar_sep {s tail rest : List Char} (h : escapedChar (s ++ sep :: tail) = some (c, rest)) :
    ∃ mid, escapedChar s = some (c, mid) ∧ rest = mid ++ sep :: tail := by
  obtain ⟨octet, following, payload, least, code, next, hoctet, hlead, hcont, hleast, hvalid, rfl⟩ := (escapedChar_eq_some).mp h
  obtain ⟨mid, hmid, rfl⟩ := escapedOctet_sep hhex hpercent hoctet
  obtain ⟨last, hlast, rfl⟩ := continuationOctets_sep hhex hpercent hcont
  exact ⟨last, (escapedChar_eq_some).mpr ⟨octet, following, payload, least, code, mid, hmid, hlead, hlast, hleast,
    hvalid, rfl⟩, rfl⟩

end Separator

/-! ## Whole texts -/

inductive Decodes : List Char → List Char → Prop
  | nil : Decodes [] []
  | plain {c : Char} {s out : List Char} : c ≠ '%' → Decodes s out → Decodes (c :: s) (c :: out)
  | escape {c : Char} {s rest out : List Char} : escapedChar s = some (c, rest) → Decodes rest out → Decodes s (c :: out)

theorem decodeChars_eq_some {fuel : Nat} {out : List Char} (hfuel : s.length ≤ fuel) :
    decodeChars fuel s = some out ↔ Decodes s out := by
  induction fuel generalizing s out with
  | zero =>
    have hnil : s = [] := List.length_eq_zero_iff.mp (by omega)
    subst hnil
    constructor
    · intro h
      cases h
      exact .nil
    · intro h
      cases h with
      | nil => rfl
      | escape hescape _ => exact absurd (escapedChar_shorter hescape) (by simp)
  | succ fuel ih =>
    cases s with
    | nil =>
      constructor
      · intro h
        cases h
        exact .nil
      · intro h
        cases h with
        | nil => rfl
        | escape hescape _ => exact absurd (escapedChar_shorter hescape) (by simp)
    | cons c rest =>
      rw [List.length_cons] at hfuel
      rw [decodeChars]
      by_cases hc : c = '%'
      · rw [if_pos hc]
        constructor
        · intro h
          simp only [Option.bind_eq_bind, Option.bind_eq_some_iff, Option.pure_def, Option.some.injEq] at h
          obtain ⟨⟨d, tail⟩, hescape, decoded, hdecoded, rfl⟩ := h
          have hlength := escapedChar_shorter hescape
          rw [List.length_cons] at hlength
          exact .escape hescape ((ih (by omega)).mp hdecoded)
        · intro h
          cases h with
          | plain hne _ => exact absurd hc hne
          | escape hescape hdecodes =>
            have hlength := escapedChar_shorter hescape
            rw [List.length_cons] at hlength
            simp [hescape, (ih (by omega)).mpr hdecodes]
      · rw [if_neg hc]
        constructor
        · intro h
          simp only [Option.bind_eq_bind, Option.bind_eq_some_iff, Option.pure_def, Option.some.injEq] at h
          obtain ⟨decoded, hdecoded, rfl⟩ := h
          exact .plain hc ((ih (by omega)).mp hdecoded)
        · intro h
          cases h with
          | plain _ hdecodes => simp [(ih (by omega)).mpr hdecodes]
          | escape hescape _ =>
            obtain ⟨tail, htail, -⟩ := escapedChar_suffix hescape
            exact absurd (List.cons.inj htail).1 hc

theorem decodeURIComponent_eq_some {s out : String} : decodeURIComponent s = some out ↔ Decodes s.toList out.toList := by
  rw [decodeURIComponent, Option.map_eq_some_iff]
  constructor
  · rintro ⟨chars, hchars, rfl⟩
    rw [String.toList_ofList]
    exact (decodeChars_eq_some le_rfl).mp hchars
  · intro h
    exact ⟨out.toList, (decodeChars_eq_some le_rfl).mpr h, String.ofList_toList⟩

theorem Decodes.append {s out t out' : List Char} (h : Decodes s out) (h' : Decodes t out') : Decodes (s ++ t) (out ++ out') := by
  induction h with
  | nil => exact h'
  | plain hc _ ih => exact .plain hc ih
  | escape hescape _ ih => exact .escape (escapedChar_append hescape t) ih

/-- A text decodes piece by piece at a separator no escape holds. -/
theorem decodes_sep {sep : Char} (hhex : hexDigit sep = none) (hpercent : sep ≠ '%') {s t out : List Char} :
    Decodes (s ++ sep :: t) out ↔ ∃ left right, Decodes s left ∧ Decodes t right ∧ out = left ++ sep :: right := by
  constructor
  · intro h
    generalize htext : s ++ sep :: t = text at h
    induction h generalizing s with
    | nil => simp at htext
    | plain hc hdecodes ih =>
      cases s with
      | nil =>
        obtain ⟨rfl, rfl⟩ := List.cons.inj htext
        exact ⟨[], _, .nil, hdecodes, rfl⟩
      | cons d s =>
        obtain ⟨rfl, htail⟩ := List.cons.inj htext
        obtain ⟨left, right, hleft, hright, rfl⟩ := ih htail
        exact ⟨_ :: left, right, .plain hc hleft, hright, rfl⟩
    | escape hescape hdecodes ih =>
      subst htext
      obtain ⟨mid, hmid, rfl⟩ := escapedChar_sep hhex hpercent hescape
      obtain ⟨left, right, hleft, hright, rfl⟩ := ih rfl
      exact ⟨_ :: left, right, .escape hmid hleft, hright, rfl⟩
  · rintro ⟨left, right, hleft, hright, rfl⟩
    exact hleft.append (.plain hpercent hright)

theorem decodes_intercalate {sep : Char} (hhex : hexDigit sep = none) (hpercent : sep ≠ '%') {parts : List (List Char)}
    {out : List Char} :
    Decodes ([sep].intercalate parts) out ↔ ∃ outs, List.Forall₂ Decodes parts outs ∧ out = [sep].intercalate outs := by
  induction parts generalizing out with
  | nil =>
    constructor
    · intro h
      cases h with
      | nil => exact ⟨[], .nil, rfl⟩
      | escape hescape _ => exact absurd (escapedChar_shorter hescape) (by simp)
    · rintro ⟨outs, houts, rfl⟩
      cases houts
      exact .nil
  | cons part rest ih =>
    by_cases hrest : rest = []
    · subst hrest
      rw [List.intercalate_singleton]
      constructor
      · intro h
        exact ⟨[out], .cons h .nil, List.intercalate_singleton.symm⟩
      · rintro ⟨outs, houts, rfl⟩
        obtain ⟨first, others, hfirst, hothers, rfl⟩ := List.forall₂_cons_left_iff.mp houts
        cases hothers
        rwa [List.intercalate_singleton]
    · rw [List.intercalate_cons_of_ne_nil hrest, List.append_assoc, List.singleton_append, decodes_sep hhex hpercent]
      constructor
      · rintro ⟨left, right, hleft, hright, rfl⟩
        obtain ⟨outs, houts, rfl⟩ := ih.mp hright
        have hne : outs ≠ [] := by
          rintro rfl
          cases houts
          exact hrest rfl
        exact ⟨left :: outs, .cons hleft houts, by rw [List.intercalate_cons_of_ne_nil hne, List.append_assoc,
          List.singleton_append]⟩
      · rintro ⟨outs, houts, rfl⟩
        obtain ⟨first, others, hfirst, hothers, rfl⟩ := List.forall₂_cons_left_iff.mp houts
        have hne : others ≠ [] := by
          rintro rfl
          cases hothers
          exact hrest rfl
        refine ⟨first, [sep].intercalate others, hfirst, ih.mpr ⟨others, hothers, rfl⟩, ?_⟩
        rw [List.intercalate_cons_of_ne_nil hne, List.append_assoc, List.singleton_append]

end Fabrika.Lib.Text
