/-
  Fabrika.App.ClientAddressProofs — the client key names the client, not the spelling of its
  address.
-/

import Fabrika.App.ClientAddress
import Fabrika.Lib.Percent
import Fabrika.Lib.Utf16

namespace Fabrika.App.ClientAddress

open Fabrika.Lib
open Fabrika.Lib.FixedText (isDigit)
open Fabrika.Lib.Text (lowerChar splitChars hexDigit)

/-! ## Digits -/

variable {m n : Nat} {c sep : Char} {text : Chars} {quad loose : Bool} {header : Option Chars} {x : Address}

theorem digitChar_inj (hm : m < 16) (hn : n < 16) (h : m.digitChar = n.digitChar) : m = n := by
  have hall : ∀ m < 16, ∀ n < 16, Nat.digitChar m = Nat.digitChar n → m = n := by decide
  exact hall m hm n hn h

theorem toDigits_inj {b m n : Nat} (hb : 1 < b) (hb16 : b ≤ 16) (h : Nat.toDigits b m = Nat.toDigits b n) : m = n := by
  have hsplit : ∀ k, b ≤ k → Nat.toDigits b k = Nat.toDigits b (k / b) ++ [Nat.digitChar (k % b)] := fun k =>
    Nat.toDigits_of_base_le hb
  have hlong : ∀ k, b ≤ k → 1 < (Nat.toDigits b k).length := by
    intro k hk
    have hpos : 0 < (Nat.toDigits b (k / b)).length := Nat.length_toDigits_pos
    rw [hsplit k hk, List.length_append, List.length_singleton]
    omega
  induction m using Nat.strong_induction_on generalizing n with
  | _ m ih =>
    by_cases hm : m < b
    · by_cases hn : n < b
      · rw [Nat.toDigits_of_lt_base hm, Nat.toDigits_of_lt_base hn] at h
        exact digitChar_inj (by omega) (by omega) (List.singleton_inj.mp h)
      · have hlength := hlong n (by omega)
        rw [← h, Nat.toDigits_of_lt_base hm, List.length_singleton] at hlength
        omega
    · by_cases hn : n < b
      · have hlength := hlong m (by omega)
        rw [h, Nat.toDigits_of_lt_base hn, List.length_singleton] at hlength
        omega
      · rw [hsplit m (by omega), hsplit n (by omega)] at h
        obtain ⟨hinit, hlast⟩ := List.append_inj' h rfl
        have hquotient := ih (m / b) (Nat.div_lt_self (by omega) hb) hinit
        have hremainder : m % b = n % b :=
          digitChar_inj ((Nat.mod_lt m (by omega)).trans_le hb16) ((Nat.mod_lt n (by omega)).trans_le hb16)
            (List.singleton_inj.mp hlast)
        rw [← Nat.div_add_mod m b, ← Nat.div_add_mod n b, hquotient, hremainder]

theorem decimalText_inj (h : decimalText m = decimalText n) : m = n := toDigits_inj (by decide) (by decide) h

theorem isDigit_decimalText (h : c ∈ decimalText n) : isDigit c = true := by
  have hdigit : c.isDigit = true := Nat.isDigit_of_mem_toDigits (by decide) (by decide) h
  simpa [isDigit, Char.isDigit, Char.le_def] using hdigit

theorem isOctet_decimalText (n : Fin 256) : isOctet (decimalText n) = true ∧ number (decimalText n) = n := by
  revert n
  decide +kernel

theorem isDigit_of_range {c lo hi : Char} (hlo : '0' ≤ lo) (hhi : hi ≤ '9') (h : lo ≤ c ∧ c ≤ hi) :
    isDigit c = true := by
  simp only [isDigit, Bool.and_eq_true, decide_eq_true_eq]
  exact ⟨Char.le_trans hlo h.1, Char.le_trans h.2 hhi⟩

theorem isDigit_of_isOctet (h : isOctet text = true) : ∀ c ∈ text, isDigit c = true := by
  match text, h with
  | [c], h => simpa [isOctet] using h
  | [b, c], h =>
    simp only [isOctet, Bool.and_eq_true, decide_eq_true_eq] at h
    have hb := isDigit_of_range (by decide) (by decide) h.1
    simp [hb, h.2]
  | [a, b, c], h =>
    simp only [isOctet, Bool.and_eq_true, Bool.or_eq_true, decide_eq_true_eq] at h
    have hdigit : isDigit '1' = true ∧ isDigit '2' = true ∧ isDigit '5' = true := by decide
    rcases h with (⟨⟨ha, hb⟩, hc⟩ | ⟨⟨ha, hb⟩, hc⟩) | ⟨⟨ha, hb⟩, hc⟩
    · have hlast := isDigit_of_range (by decide) (by decide) hc
      simp [ha, hb, hdigit, hlast]
    · have hsecond := isDigit_of_range (by decide) (by decide) hb
      simp [ha, hc, hdigit, hsecond]
    · simp [ha, hb, hc, hdigit]

/-- The regular expression's octets are the decimal texts of the numbers below 256. -/
theorem isOctet_iff : isOctet text = true ↔ ∃ n : Fin 256, text = decimalText n := by
  constructor
  · intro h
    have hdigits := isDigit_of_isOctet h
    have hspell : ∀ c ∈ text, ∃ d < 10, Nat.digitChar d = c := fun c hc =>
      have hchar := FixedText.digitChar_of_isDigit (hdigits c hc)
      ⟨_, hchar.1, hchar.2⟩
    match text, h with
    | [c], h =>
      obtain ⟨c, hc, rfl⟩ := hspell c (by simp)
      have hall : ∀ c < 10, ∃ n : Fin 256, [Nat.digitChar c] = decimalText n := by decide +kernel
      exact hall c hc
    | [b, c], h =>
      obtain ⟨b, hb, rfl⟩ := hspell b (by simp)
      obtain ⟨c, hc, rfl⟩ := hspell c (by simp)
      have hall : ∀ b < 10, ∀ c < 10, isOctet [Nat.digitChar b, Nat.digitChar c] = true →
          10 * b + c < 256 ∧ [Nat.digitChar b, Nat.digitChar c] = decimalText (10 * b + c) := by decide
      obtain ⟨hlt, htext⟩ := hall b hb c hc h
      exact ⟨⟨10 * b + c, hlt⟩, htext⟩
    | [a, b, c], h =>
      obtain ⟨a, ha, rfl⟩ := hspell a (by simp)
      obtain ⟨b, hb, rfl⟩ := hspell b (by simp)
      obtain ⟨c, hc, rfl⟩ := hspell c (by simp)
      have hall : ∀ a < 10, ∀ b < 10, ∀ c < 10, isOctet [Nat.digitChar a, Nat.digitChar b, Nat.digitChar c] = true →
          100 * a + 10 * b + c < 256 ∧
            [Nat.digitChar a, Nat.digitChar b, Nat.digitChar c] = decimalText (100 * a + 10 * b + c) := by
        decide
      obtain ⟨hlt, htext⟩ := hall a ha b hb c hc h
      exact ⟨⟨100 * a + 10 * b + c, hlt⟩, htext⟩
  · intro ⟨n, hn⟩
    rw [hn]
    exact (isOctet_decimalText n).1

/-! ## The quad -/

theorem not_mem_octet (hc : isDigit c = false) (n : Nat) : c ∉ decimalText n := by
  intro h
  rw [isDigit_decimalText h] at hc
  cases hc

theorem quad_octets {a b c d : Fin 256} (h : QuadText text a b c d) :
    splitChars '.' text = [a.val, b.val, c.val, d.val].map decimalText := by
  rw [h]
  apply Text.splitChars_join (by simp)
  intro part hpart
  obtain ⟨n, -, rfl⟩ := List.mem_map.mp hpart
  exact not_mem_octet (by decide) n

theorem isIpv4_iff : isIpv4 text = true ↔ ∃ a b c d, QuadText text a b c d := by
  constructor
  · intro h
    simp only [isIpv4, Bool.and_eq_true, decide_eq_true_eq, List.all_eq_true] at h
    obtain ⟨hlength, hoctets⟩ := h
    obtain ⟨p, q, r, s, hsplit⟩ := List.length_eq_four.mp hlength
    have hjoin := Text.join_splitChars '.' text
    rw [hsplit] at hjoin hoctets
    obtain ⟨a, ha⟩ := (isOctet_iff).mp (hoctets p (by simp))
    obtain ⟨b, hb⟩ := (isOctet_iff).mp (hoctets q (by simp))
    obtain ⟨c, hc⟩ := (isOctet_iff).mp (hoctets r (by simp))
    obtain ⟨d, hd⟩ := (isOctet_iff).mp (hoctets s (by simp))
    refine ⟨a, b, c, d, ?_⟩
    rw [QuadText, ← hjoin, ha, hb, hc, hd]
    rfl
  · intro ⟨a, b, c, d, h⟩
    simp only [isIpv4, quad_octets h, List.length_map, List.all_map, Bool.and_eq_true, List.all_eq_true]
    refine ⟨rfl, fun n hn => ?_⟩
    have hlt : n < 256 := by
      simp only [List.mem_cons, List.not_mem_nil, or_false] at hn
      omega
    exact (isOctet_iff).mpr ⟨⟨n, hlt⟩, rfl⟩

theorem quadGroups_quad {a b c d : Fin 256} (h : QuadText text a b c d) :
    quadGroups text = [a.val * 256 + b.val, c.val * 256 + d.val] := by
  have hnumber : ∀ n : Fin 256, number (decimalText n) = n := fun n => (isOctet_decimalText n).2
  simp [quadGroups, quad_octets h, hnumber]

theorem mem_intercalate {α : Type} {sep : List α} {parts : List (List α)} {x : α} (h : x ∈ sep.intercalate parts) :
    x ∈ sep ∨ ∃ part ∈ parts, x ∈ part := by
  induction parts with
  | nil => cases h
  | cons part rest ih =>
    by_cases hrest : rest = []
    · rw [hrest, List.intercalate_singleton] at h
      exact Or.inr ⟨part, List.mem_cons_self, h⟩
    · rw [List.intercalate_cons_of_ne_nil hrest, List.mem_append, List.mem_append] at h
      rcases h with (h | h) | h
      · exact Or.inr ⟨part, List.mem_cons_self, h⟩
      · exact Or.inl h
      · rcases ih h with h | ⟨other, hother, h⟩
        · exact Or.inl h
        · exact Or.inr ⟨other, List.mem_cons_of_mem _ hother, h⟩

theorem mem_quad {a b c d : Fin 256} (h : QuadText text a b c d) {ch : Char} (hch : ch ∈ text) :
    ch = '.' ∨ isDigit ch = true := by
  rw [h] at hch
  rcases mem_intercalate hch with hpoint | ⟨octet, hoctet, hdigit⟩
  · exact Or.inl (List.mem_singleton.mp hpoint)
  · obtain ⟨n, -, rfl⟩ := List.mem_map.mp hoctet
    exact Or.inr (isDigit_decimalText hdigit)

/-! ## Case -/

theorem toNat_lowerChar (c : Char) : (lowerChar c).toNat =
    if (0x41 ≤ c.toNat ∧ c.toNat ≤ 0x5a) ∨ (0xc0 ≤ c.toNat ∧ c.toNat ≤ 0xde ∧ c.toNat ≠ 0xd7) then c.toNat + 32 else c.toNat := by
  unfold lowerChar
  dsimp only
  split
  · next hcase =>
    simp only [Bool.or_eq_true, Bool.and_eq_true, decide_eq_true_eq, bne_iff_ne, and_assoc] at hcase
    rw [if_pos hcase, toNat_ofNat (Or.inl (by omega))]
  · next hcase =>
    simp only [Bool.or_eq_true, Bool.and_eq_true, decide_eq_true_eq, bne_iff_ne, and_assoc] at hcase
    rw [if_neg hcase]

/-- No other character has the lower case of a mark below the lower-case letters. -/
theorem lowerChar_eq_iff {m : Char} (hm : m.toNat < 0x41 ∨ (0x5a < m.toNat ∧ m.toNat < 0x61)) :
    lowerChar c = m ↔ c = m := by
  rw [← Char.toNat_inj, ← Char.toNat_inj, toNat_lowerChar]
  split <;> omega

theorem digit_lt (h : isDigit c = true) : c.toNat < 0x41 := by
  simp only [isDigit, Bool.and_eq_true, decide_eq_true_eq] at h
  have hrange : 48 ≤ c.toNat ∧ c.toNat ≤ 57 := h
  omega

theorem lowerChar_digit (h : isDigit c = true) : lowerChar c = c :=
  (lowerChar_eq_iff (Or.inl (digit_lt h))).mpr rfl

theorem eq_of_lowerChar_digit (h : isDigit (lowerChar c) = true) : lowerChar c = c :=
  ((lowerChar_eq_iff (Or.inl (digit_lt h))).mp rfl).symm

/-- `hexDigit`, by the character's code. -/
def hexCode (n : Nat) : Option Nat :=
  if 48 ≤ n ∧ n ≤ 57 then some (n - 48) else if 97 ≤ n ∧ n ≤ 102 then some (n - 97 + 10)
  else if 65 ≤ n ∧ n ≤ 70 then some (n - 65 + 10) else none

theorem hexDigit_eq (c : Char) : hexDigit c = hexCode c.toNat := rfl

theorem hexDigit_lowerChar (c : Char) : hexDigit (lowerChar c) = hexDigit c := by
  rw [hexDigit_eq, hexDigit_eq, toNat_lowerChar]
  unfold hexCode
  split_ifs <;> first | rfl | omega

theorem isHexDigit_lowerChar (c : Char) : Text.isHexDigit (lowerChar c) = (hexDigit c).isSome := by
  have hcode : Text.isHexDigit (lowerChar c) =
      ((48 ≤ (lowerChar c).toNat && (lowerChar c).toNat ≤ 57) ||
        (97 ≤ (lowerChar c).toNat && (lowerChar c).toNat ≤ 102)) := rfl
  rw [hcode, hexDigit_eq, toNat_lowerChar, Bool.eq_iff_iff]
  unfold hexCode
  simp only [Bool.or_eq_true, Bool.and_eq_true, decide_eq_true_eq]
  split_ifs <;> simp <;> omega

theorem splitChars_map {f : Char → Char} (hf : ∀ c, f c = sep ↔ c = sep) (text : Chars) :
    splitChars sep (text.map f) = (splitChars sep text).map (List.map f) := by
  induction text with
  | nil => rfl
  | cons c rest ih =>
    rw [List.map_cons, splitChars, splitChars, ih]
    by_cases hc : c = sep
    · rw [if_pos hc, if_pos ((hf c).mpr hc)]
      rfl
    · rw [if_neg hc, if_neg fun h => hc ((hf c).mp h)]
      cases splitChars sep rest <;> rfl

theorem splitChars_lower (hsep : sep.toNat < 0x41) (text : Chars) :
    splitChars sep (text.map lowerChar) = (splitChars sep text).map (List.map lowerChar) :=
  splitChars_map (fun _ => lowerChar_eq_iff (Or.inl hsep)) text

theorem lower_quad {a b c d : Fin 256} (h : QuadText text a b c d) : text.map lowerChar = text := by
  refine Text.map_lower_eq fun ch hch => ?_
  rcases mem_quad h hch with rfl | hdigit
  · rfl
  · exact lowerChar_digit hdigit

theorem isOctet_lower (text : Chars) : isOctet (text.map lowerChar) = isOctet text := by
  rw [Bool.eq_iff_iff]
  constructor
  · intro h
    have hself := Text.map_lower_eq fun c hc => eq_of_lowerChar_digit (isDigit_of_isOctet h _ (List.mem_map_of_mem hc))
    rwa [hself] at h
  · intro h
    rwa [Text.map_lower_eq fun c hc => lowerChar_digit (isDigit_of_isOctet h c hc)]

theorem isIpv4_lower (text : Chars) : isIpv4 (text.map lowerChar) = isIpv4 text := by
  simp only [isIpv4, splitChars_lower (show '.'.toNat < 0x41 by decide), List.length_map, List.all_map]
  congr 2
  funext octet
  exact isOctet_lower octet

/-! ## Groups -/

theorem parseHex_lower (text : Chars) : parseHex (text.map lowerChar) = parseHex text := by
  rw [parseHex, parseHex, List.foldl_map]
  congr 1
  funext n c
  rw [hexDigit_lowerChar]

theorem isHextet_iff : isHextet (text.map lowerChar) = true ↔ GroupText text (parseHex (text.map lowerChar)) := by
  simp only [isHextet, List.length_map, Bool.and_eq_true, decide_eq_true_eq, List.all_map, List.all_eq_true, Function.comp_apply,
    isHexDigit_lowerChar, GroupText, parseHex_lower, and_true, and_assoc]

theorem isHextet_of_group (h : GroupText text n) :
    isHextet (text.map lowerChar) = true ∧ parseHex (text.map lowerChar) = n := by
  have hn : n = parseHex (text.map lowerChar) := by
    rw [parseHex_lower]
    exact h.2.2.2
  rw [hn] at h
  exact ⟨(isHextet_iff).mpr h, hn.symm⟩

theorem hexDigit_lt (h : hexDigit c = some n) : n < 16 := by
  have hspell := Text.hexDigit_eq_some h
  omega

theorem parseHex_lt (text : Chars) : parseHex text < 16 ^ text.length := by
  induction text using List.reverseRecOn with
  | nil => decide
  | append_singleton text c ih =>
    have hdigit : (hexDigit c).getD 0 < 16 := by
      cases hc : hexDigit c with
      | none => decide
      | some n => exact hexDigit_lt hc
    have hstep : parseHex (text ++ [c]) = 16 * parseHex text + (hexDigit c).getD 0 := by
      rw [parseHex, List.foldl_append]
      rfl
    rw [hstep, List.length_append, List.length_singleton, pow_succ]
    omega

theorem group_lt (h : GroupText text n) : n < 0x10000 := by
  obtain ⟨-, hlength, -, rfl⟩ := h
  have hpow : 16 ^ text.length ≤ 16 ^ 4 := Nat.pow_le_pow_right (by decide) hlength
  have hlt := parseHex_lt text
  omega

theorem mem_group (h : GroupText text n) (hc : c ∈ text) : (hexDigit c).isSome = true :=
  h.2.2.1 c hc

theorem not_ipv4_of_group (h : GroupText text n) : isIpv4 text = false := by
  have hpoint : '.' ∉ text := fun hmem => absurd (mem_group h hmem) (by decide)
  have hsplit : splitChars '.' text = [text] := by
    have hjoin := @Text.splitChars_join '.' [text] (by simp) (by simpa using hpoint)
    rwa [List.intercalate_singleton] at hjoin
  simp [isIpv4, hsplit]

/-! ## The parts between colons -/

theorem hextet_head {part : Chars} {rest : List Chars} (hne : rest ≠ []) :
    readParts (part :: rest) = if isHextet part then (readParts rest).map (parseHex part :: ·) else none := by
  cases rest with
  | nil => exact absurd rfl hne
  | cons next rest => rfl

/-- What is read of lower-cased parts is what the parts spell. -/
theorem readParts_lower {parts : List Chars} (hne : parts ≠ []) {groups : List Nat}
    (h : readParts (parts.map (List.map lowerChar)) = some groups) : HalfText true ([':'].intercalate parts) groups := by
  induction parts generalizing groups with
  | nil => exact absurd rfl hne
  | cons part rest ih =>
    by_cases hrest : rest = []
    · rw [hrest, List.intercalate_singleton]
      rw [hrest, List.map_singleton, readParts, isIpv4_lower] at h
      by_cases hquad : isIpv4 part = true
      · obtain ⟨a, b, c, d, htext⟩ := (isIpv4_iff).mp hquad
        rw [if_pos hquad, lower_quad htext, quadGroups_quad htext] at h
        cases h
        exact .quad rfl htext
      · rw [if_neg hquad] at h
        split at h
        · next hhex =>
          cases h
          exact .group ((isHextet_iff).mp hhex)
        · cases h
    · rw [List.map_cons, hextet_head (by simpa using hrest)] at h
      split at h
      · next hhex =>
        obtain ⟨tail, htail, rfl⟩ := Option.map_eq_some_iff.mp h
        rw [List.intercalate_cons_of_ne_nil hrest, List.append_assoc]
        exact .cons ((isHextet_iff).mp hhex) (ih hrest htail)
      · cases h

theorem colon_not_mem_group (h : GroupText text n) : ':' ∉ text := fun hmem =>
  absurd (mem_group h hmem) (by decide)

theorem colon_not_mem_quad {a b c d : Fin 256} (h : QuadText text a b c d) : ':' ∉ text := fun hmem =>
  (mem_quad h hmem).elim (by decide) (by decide)

theorem readParts_half {groups : List Nat} (h : HalfText true text groups) :
    readParts ((splitChars ':' text).map (List.map lowerChar)) = some groups := by
  induction h with
  | group h =>
    obtain ⟨hhex, hvalue⟩ := isHextet_of_group h
    rw [Text.splitChars_of_not_mem (colon_not_mem_group h), List.map_singleton, readParts, isIpv4_lower, not_ipv4_of_group h,
      if_neg (by decide), if_pos hhex, hvalue]
  | quad _ h =>
    rw [Text.splitChars_of_not_mem (colon_not_mem_quad h), List.map_singleton, readParts, isIpv4_lower,
      if_pos ((isIpv4_iff).mpr ⟨_, _, _, _, h⟩), lower_quad h, quadGroups_quad h]
  | cons h _ ih =>
    obtain ⟨hhex, hvalue⟩ := isHextet_of_group h
    rw [Text.splitChars_append (colon_not_mem_group h), List.map_cons, hextet_head (by simpa using Text.splitChars_ne_nil ':' _),
      if_pos hhex, ih, hvalue]
    rfl

theorem hexDigit_of_isDigit (h : isDigit c = true) : (hexDigit c).isSome = true := by
  simp only [isDigit, Bool.and_eq_true, decide_eq_true_eq] at h
  rw [hexDigit, if_pos h, Option.isSome_some]

theorem group_head (h : GroupText text n) : ∃ c rest, text = c :: rest ∧ (hexDigit c).isSome = true := by
  cases text with
  | nil => exact absurd h.1 (by decide)
  | cons c rest => exact ⟨c, rest, rfl, mem_group h List.mem_cons_self⟩

theorem quad_head {a b c d : Fin 256} (h : QuadText text a b c d) :
    ∃ ch rest, text = ch :: rest ∧ (hexDigit ch).isSome = true := by
  cases ha : decimalText a with
  | nil => exact absurd ha Nat.toDigits_ne_nil
  | cons ch rest =>
    refine ⟨ch, rest ++ ['.'] ++ ['.'].intercalate ([b.val, c.val, d.val].map decimalText), ?_, ?_⟩
    · rw [h, List.map_cons, List.intercalate_cons_of_ne_nil (by simp), ha]
      rfl
    · exact hexDigit_of_isDigit (isDigit_decimalText (n := a) (by rw [ha]; exact List.mem_cons_self))

/-- Groups start with a digit. -/
theorem HalfText.head {groups : List Nat} (h : HalfText quad text groups) :
    ∃ c rest, text = c :: rest ∧ (hexDigit c).isSome = true := by
  cases h with
  | group h => exact group_head h
  | quad _ h => exact quad_head h
  | cons h _ =>
    obtain ⟨c, rest, rfl, hc⟩ := group_head h
    exact ⟨c, _, rfl, hc⟩

theorem groupsOf_iff {half : Chars} {groups : List Nat} :
    groupsOf (half.map lowerChar) = some groups ↔ SideText true half groups := by
  unfold groupsOf SideText
  by_cases hempty : half = []
  · rw [if_pos (List.map_eq_nil_iff.mpr hempty), Option.some.injEq]
    constructor
    · intro h
      exact Or.inl ⟨hempty, h.symm⟩
    · intro h
      rcases h with ⟨-, h⟩ | h
      · exact h.symm
      · obtain ⟨c, rest, hcons, -⟩ := h.head
        rw [hempty] at hcons
        cases hcons
  · rw [if_neg (fun h => hempty (List.map_eq_nil_iff.mp h)), splitChars_lower (by decide)]
    constructor
    · intro h
      have hhalf := readParts_lower (Text.splitChars_ne_nil ':' half) h
      rw [Text.join_splitChars] at hhalf
      exact Or.inr hhalf
    · intro h
      rcases h with ⟨h, -⟩ | h
      · exact absurd h hempty
      · exact readParts_half h

/-! ## The halves around `::` -/

theorem splitColons_ne_nil (text : Chars) : splitColons text ≠ [] := by
  fun_induction splitColons text with
  | case1 rest ih => exact List.cons_ne_nil _ _
  | case2 c rest hnot ih => simpa [List.modifyHead_eq_nil_iff] using ih
  | case3 => exact List.cons_ne_nil _ _

theorem join_splitColons (text : Chars) : [':', ':'].intercalate (splitColons text) = text := by
  fun_induction splitColons text with
  | case1 rest ih =>
    rw [List.intercalate_cons_of_ne_nil (splitColons_ne_nil rest), ih]
    rfl
  | case2 c rest hnot ih =>
    obtain ⟨part, parts, hsplit⟩ := List.exists_cons_of_ne_nil (splitColons_ne_nil rest)
    rw [hsplit] at ih ⊢
    cases parts with
    | nil =>
      rw [List.intercalate_singleton] at ih
      rw [List.modifyHead_cons, List.intercalate_singleton, ih]
    | cons next parts =>
      rw [List.intercalate_cons_of_ne_nil (List.cons_ne_nil _ _)] at ih
      rw [List.modifyHead_cons, List.intercalate_cons_of_ne_nil (List.cons_ne_nil _ _), List.cons_append, List.cons_append, ih]
  | case3 => rfl

/-- A colon that no colon follows does not divide. -/
theorem splitColons_cons {rest : Chars} (h : c ≠ ':' ∨ rest.head? ≠ some ':') :
    splitColons (c :: rest) = (splitColons rest).modifyHead (c :: ·) := by
  rw [splitColons]
  intro tail hc hrest
  rcases h with h | h
  · exact h hc
  · rw [hrest] at h
    exact h rfl

theorem splitColons_append (h : ':' ∉ text) (rest : Chars) :
    splitColons (text ++ rest) = (splitColons rest).modifyHead (text ++ ·) := by
  induction text with
  | nil =>
    obtain ⟨part, parts, hsplit⟩ := List.exists_cons_of_ne_nil (splitColons_ne_nil rest)
    rw [List.nil_append, hsplit]
    rfl
  | cons c text ih =>
    obtain ⟨hc, htext⟩ := List.ne_and_not_mem_of_not_mem_cons h
    rw [List.cons_append, splitColons_cons (Or.inl hc.symm), ih htext, List.modifyHead_modifyHead]
    rfl

/-- Groups hold no `::` and end in no colon, so they are not divided from what follows. -/
theorem splitColons_half {groups : List Nat} (h : HalfText quad text groups) (rest : Chars) :
    splitColons (text ++ rest) = (splitColons rest).modifyHead (text ++ ·) := by
  induction h with
  | group h => exact splitColons_append (colon_not_mem_group h) rest
  | quad _ h => exact splitColons_append (colon_not_mem_quad h) rest
  | @cons text tail n groups h htail ih =>
    obtain ⟨c, more, hcons, hc⟩ := htail.head
    have hnext : (tail ++ rest).head? ≠ some ':' := by
      rw [hcons]
      intro hhead
      rw [Option.some.inj hhead] at hc
      exact absurd hc (by decide)
    rw [List.append_assoc, List.cons_append, splitColons_append (colon_not_mem_group h), splitColons_cons (Or.inr hnext), ih,
      List.modifyHead_modifyHead, List.modifyHead_modifyHead]
    congr 1
    funext part
    simp

theorem splitColons_side {groups : List Nat} (h : SideText quad text groups) (rest : Chars) :
    splitColons (text ++ rest) = (splitColons rest).modifyHead (text ++ ·) := by
  rcases h with ⟨rfl, -⟩ | h
  · exact splitColons_append List.not_mem_nil rest
  · exact splitColons_half h rest

theorem splitColons_whole {groups : List Nat} (h : SideText quad text groups) : splitColons text = [text] := by
  have hsplit := splitColons_side h []
  rw [List.append_nil] at hsplit
  rw [hsplit]
  simp [splitColons]

theorem splitColons_two {left right : Chars} {head tail : List Nat} (hleft : SideText quad left head)
    (hright : SideText true right tail) : splitColons (left ++ ':' :: ':' :: right) = [left, right] := by
  rw [splitColons_side hleft, splitColons, splitColons_whole hright]
  simp

theorem splitColons_lower (text : Chars) :
    splitColons (text.map lowerChar) = (splitColons text).map (List.map lowerChar) := by
  have hcolon : ∀ c, lowerChar c = ':' ↔ c = ':' := fun c => lowerChar_eq_iff (Or.inl (by decide))
  fun_induction splitColons text with
  | case1 rest ih =>
    rw [List.map_cons, List.map_cons, (hcolon ':').mpr rfl, splitColons, ih]
    rfl
  | case2 c rest hnot ih =>
    have hpair : lowerChar c ≠ ':' ∨ (rest.map lowerChar).head? ≠ some ':' := by
      by_cases hc : c = ':'
      · right
        intro hhead
        rw [List.head?_map] at hhead
        obtain ⟨d, hd, hlower⟩ := Option.map_eq_some_iff.mp hhead
        obtain ⟨tail, htail⟩ := List.head?_eq_some_iff.mp hd
        exact hnot tail hc (by rw [htail, (hcolon d).mp hlower])
      · exact Or.inl fun h => hc ((hcolon c).mp h)
    rw [List.map_cons, splitColons_cons hpair, ih]
    cases splitColons rest <;> rfl
  | case3 => rfl

/-! ## The address -/

theorem HalfText.lt {groups : List Nat} (h : HalfText quad text groups) : ∀ group ∈ groups, group < 0x10000 := by
  induction h with
  | group h => simpa using group_lt h
  | @quad _ a b c d _ _ =>
    intro group hgroup
    simp only [List.mem_cons, List.not_mem_nil, or_false] at hgroup
    omega
  | cons h _ ih =>
    intro group hgroup
    rcases List.mem_cons.mp hgroup with rfl | hgroup
    · exact group_lt h
    · exact ih group hgroup

theorem SideText.lt {groups : List Nat} (h : SideText quad text groups) : ∀ group ∈ groups, group < 0x10000 := by
  rcases h with ⟨-, rfl⟩ | h
  · simp
  · exact h.lt

/-- What an IPv6 text spells are the groups of an address. -/
theorem Ipv6Text.groups {loose : Bool} {text : Chars} {groups : List Nat} (h : Ipv6Text loose text groups) :
    ∃ address : Groups, address.list = groups := by
  cases h with
  | full h hlength => exact ⟨⟨groups, hlength, h.lt⟩, rfl⟩
  | @compressed left right head tail hleft hright hfew =>
    refine ⟨⟨_, ?_, fun group hgroup => ?_⟩, rfl⟩
    · simp only [List.length_append, List.length_replicate]
      omega
    · rw [List.mem_append, List.mem_append, List.mem_replicate] at hgroup
      rcases hgroup with (hgroup | ⟨-, rfl⟩) | hgroup
      · exact hleft.lt group hgroup
      · decide
      · exact hright.lt group hgroup

theorem HalfText.mono {groups : List Nat} (h : HalfText quad text groups) : HalfText true text groups := by
  induction h with
  | group h => exact .group h
  | quad _ h => exact .quad rfl h
  | cons h _ ih => exact .cons h ih

theorem SideText.mono {groups : List Nat} (h : SideText quad text groups) : SideText true text groups :=
  h.imp id HalfText.mono

theorem Ipv6Text.mono {groups : List Nat} (h : Ipv6Text loose text groups) : Ipv6Text true text groups := by
  cases h with
  | full h hlength => exact .full h hlength
  | compressed hleft hright hfew => exact .compressed hleft.mono hright hfew

/-- What `ipv6Groups` reads before the zone id. -/
def addressGroups (address : Chars) : Option (List Nat) :=
  match splitColons address with
  | [whole] => (groupsOf whole).filter (·.length = 8)
  | [left, right] => do
    let head ← groupsOf left
    let tail ← groupsOf right
    let missing : Int := 8 - head.length - tail.length
    if missing < 1 then none else some (head ++ List.replicate missing.toNat 0 ++ tail)
  | _ => none

theorem addressGroups_iff {groups : List Nat} :
    addressGroups (text.map lowerChar) = some groups ↔ Ipv6Text true text groups := by
  constructor
  · intro h
    have hjoin := join_splitColons text
    rw [addressGroups, splitColons_lower] at h
    match hsplit : splitColons text, h with
    | [], h => cases h
    | [whole], h =>
      rw [hsplit, List.intercalate_singleton] at hjoin
      simp only [List.map_cons, List.map_nil, Option.filter_eq_some_iff, decide_eq_true_eq] at h
      obtain ⟨hgroups, hlength⟩ := h
      rw [hjoin] at hgroups
      rcases (groupsOf_iff).mp hgroups with ⟨-, rfl⟩ | hhalf
      · cases hlength
      · exact .full hhalf hlength
    | [left, right], h =>
      rw [hsplit] at hjoin
      have htext : left ++ ':' :: ':' :: right = text := by simpa [List.intercalate] using hjoin
      simp only [List.map_cons, List.map_nil, Option.bind_eq_bind, Option.bind_eq_some_iff] at h
      obtain ⟨head, hhead, tail, htail, hmissing⟩ := h
      split at hmissing
      · cases hmissing
      · next hone =>
        have hcount : ((8 : Int) - head.length - tail.length).toNat = 8 - head.length - tail.length := by omega
        rw [hcount] at hmissing
        cases hmissing
        rw [← htext]
        exact .compressed ((groupsOf_iff).mp hhead) ((groupsOf_iff).mp htail) (by omega)
    | _ :: _ :: _ :: _, h => cases h
  · intro h
    rw [addressGroups, splitColons_lower]
    cases h with
    | full h hlength =>
      rw [splitColons_whole (Or.inr h)]
      simp [(groupsOf_iff).mpr (Or.inr h), hlength]
    | @compressed left right head tail hleft hright hfew =>
      have hone : ¬ ((8 : Int) - head.length - tail.length < 1) := by omega
      rw [splitColons_two hleft hright]
      simp [(groupsOf_iff).mpr hleft, (groupsOf_iff).mpr hright, hone]

theorem headD_splitChars (sep : Char) (text : Chars) : (splitChars sep text).headD [] = text.takeWhile (· ≠ sep) := by
  induction text with
  | nil => rfl
  | cons c rest ih =>
    rw [splitChars]
    by_cases hc : c = sep
    · rw [if_pos hc, List.headD_cons, List.takeWhile_cons_of_neg (by simpa using hc)]
    · rw [if_neg hc, List.takeWhile_cons_of_pos (by simpa using hc), ← ih]
      cases splitChars sep rest <;> rfl

theorem takeWhile_of_not_mem (h : sep ∉ text) : text.takeWhile (· ≠ sep) = text := by
  rw [List.takeWhile_eq_self_iff]
  intro c hc
  simpa using fun heq : c = sep => h (heq ▸ hc)

theorem takeWhile_append (h : sep ∉ text) (rest : Chars) : (text ++ sep :: rest).takeWhile (· ≠ sep) = text := by
  rw [List.takeWhile_append_of_pos, List.takeWhile_cons_of_neg (by simp), List.append_nil]
  intro c hc
  simpa using fun heq : c = sep => h (heq ▸ hc)

/-- The characters of an IPv6 text: hex digits, points and colons. -/
def isAddressChar (c : Char) : Bool := (hexDigit c).isSome || c = '.' || c = ':'

theorem HalfText.chars {groups : List Nat} (h : HalfText quad text groups) : ∀ c ∈ text, isAddressChar c = true := by
  induction h with
  | group h =>
    intro c hc
    simp [isAddressChar, mem_group h hc]
  | quad _ h =>
    intro c hc
    rcases mem_quad h hc with rfl | hdigit
    · decide
    · simp [isAddressChar, hexDigit_of_isDigit hdigit]
  | cons h _ ih =>
    intro c hc
    rcases List.mem_append.mp hc with hc | hc
    · simp [isAddressChar, mem_group h hc]
    · rcases List.mem_cons.mp hc with rfl | hc
      · decide
      · exact ih c hc

theorem SideText.chars {groups : List Nat} (h : SideText quad text groups) : ∀ c ∈ text, isAddressChar c = true := by
  rcases h with ⟨rfl, -⟩ | h
  · simp
  · exact h.chars

theorem Ipv6Text.chars {groups : List Nat} (h : Ipv6Text loose text groups) : ∀ c ∈ text, isAddressChar c = true := by
  cases h with
  | full h _ => exact h.chars
  | compressed hleft hright _ =>
    intro c hc
    rcases List.mem_append.mp hc with hc | hc
    · exact hleft.chars c hc
    · rcases List.mem_cons.mp hc with rfl | hc
      · decide
      · rcases List.mem_cons.mp hc with rfl | hc
        · decide
        · exact hright.chars c hc

theorem not_mem_address {groups : List Nat} (h : Ipv6Text loose text groups) (hc : isAddressChar c = false) : c ∉ text := by
  intro hmem
  rw [h.chars c hmem] at hc
  cases hc

theorem ScopedText.mono {groups : List Nat} (h : ScopedText loose text groups) : ScopedText true text groups := by
  cases h with
  | plain h => exact .plain h.mono
  | zone h _ => exact .zone h.mono (Or.inl rfl)

theorem ScopedText.groups {loose : Bool} {text : Chars} {groups : List Nat} (h : ScopedText loose text groups) :
    ∃ address : Groups, address.list = groups := by
  cases h with
  | plain h => exact h.groups
  | zone h _ => exact h.groups

theorem ipv6Groups_iff {groups : List Nat} :
    ipv6Groups (text.map lowerChar) = some groups ↔ ScopedText true text groups := by
  have hgroups : ipv6Groups (text.map lowerChar) = addressGroups ((text.takeWhile (· ≠ '%')).map lowerChar) := by
    have hmark : ∀ c, lowerChar c = '%' ↔ c = '%' := fun c => lowerChar_eq_iff (Or.inl (by decide))
    have hhead : (splitChars '%' (text.map lowerChar)).headD [] = (text.takeWhile (· ≠ '%')).map lowerChar := by
      rw [headD_splitChars, List.takeWhile_map]
      congr 2
      funext c
      simp [hmark c]
    rw [← hhead]
    rfl
  rw [hgroups, addressGroups_iff]
  constructor
  · intro h
    by_cases hzone : '%' ∈ text
    · obtain ⟨front, zone, rfl, hfront⟩ := List.eq_append_cons_of_mem hzone
      rw [takeWhile_append hfront] at h
      exact .zone h (Or.inl rfl)
    · rw [takeWhile_of_not_mem hzone] at h
      exact .plain h
  · intro h
    cases h with
    | plain h => rwa [takeWhile_of_not_mem (not_mem_address h (by decide))]
    | zone h _ => rwa [takeWhile_append (not_mem_address h (by decide))]

/-! ## The key of a text -/

/-- The key of an address. -/
def Address.key : Address → Chars
  | .v4 a b c d => ['.'].intercalate ([a.val, b.val, c.val, d.val].map decimalText)
  | .v6 groups => groupsKey groups.list

theorem Ipv6Text.colon {groups : List Nat} (h : Ipv6Text loose text groups) : ':' ∈ text := by
  cases h with
  | full h hlength =>
    cases h with
    | group _ => cases hlength
    | quad _ _ => cases hlength
    | cons _ _ => simp
  | compressed _ _ _ => simp

theorem ScopedText.colon {groups : List Nat} (h : ScopedText loose text groups) : ':' ∈ text := by
  cases h with
  | plain h => exact h.colon
  | zone h _ => exact List.mem_append_left _ h.colon

/-- An IPv6 text starts with a digit or a colon. -/
theorem ScopedText.head {groups : List Nat} (h : ScopedText loose text groups) : text.head? ≠ some '[' := by
  have haddress : ∀ {core : Chars}, Ipv6Text loose core groups → ∀ rest, (core ++ rest).head? ≠ some '[' := by
    intro core hcore rest hhead
    cases core with
    | nil => exact absurd hcore.colon List.not_mem_nil
    | cons c core =>
      have hc : c = '[' := Option.some.inj hhead
      exact not_mem_address hcore (c := '[') (by decide) (by rw [hc]; exact List.mem_cons_self)
  cases h with
  | plain h =>
    have hhead := haddress h []
    rwa [List.append_nil] at hhead
  | zone h _ => exact haddress h _

theorem withoutBrackets_brackets (text : Chars) : withoutBrackets ('[' :: text ++ [']']) = text := by
  rw [withoutBrackets, if_pos ⟨rfl, List.getLast?_concat⟩]
  simp

theorem withoutBrackets_of_head (h : text.head? ≠ some '[') : withoutBrackets text = text := by
  rw [withoutBrackets, if_neg fun hboth => h hboth.1]

theorem withoutBrackets_cases (text : Chars) :
    withoutBrackets text = text ∨ text = '[' :: withoutBrackets text ++ [']'] := by
  unfold withoutBrackets
  by_cases hboth : text.head? = some '[' ∧ text.getLast? = some ']'
  · rw [if_pos hboth]
    right
    obtain ⟨hhead, hlast⟩ := hboth
    obtain ⟨rest, rfl⟩ := List.head?_eq_some_iff.mp hhead
    cases rest using List.reverseRecOn with
    | nil => exact absurd (Option.some.inj hlast) (by decide)
    | append_singleton mid c =>
      rw [← List.cons_append, List.getLast?_concat] at hlast
      simp [Option.some.inj hlast]
  · rw [if_neg hboth]
    exact Or.inl rfl

theorem withoutBrackets_lower (text : Chars) :
    withoutBrackets (text.map lowerChar) = (withoutBrackets text).map lowerChar := by
  have hopen : ∀ c, lowerChar c = '[' ↔ c = '[' := fun c => lowerChar_eq_iff (Or.inr (by decide))
  have hclose : ∀ c, lowerChar c = ']' ↔ c = ']' := fun c => lowerChar_eq_iff (Or.inr (by decide))
  have hends : ((text.map lowerChar).head? = some '[' ∧ (text.map lowerChar).getLast? = some ']') ↔
      (text.head? = some '[' ∧ text.getLast? = some ']') := by
    simp [List.head?_map, List.getLast?_map, hopen, hclose]
  unfold withoutBrackets
  by_cases hboth : text.head? = some '[' ∧ text.getLast? = some ']'
  · rw [if_pos (hends.mpr hboth), if_pos hboth, ← List.map_drop, List.map_dropLast]
  · rw [if_neg fun h => hboth (hends.mp h), if_neg hboth]

theorem not_ipv4_of_colon (h : ':' ∈ text) : isIpv4 text = false := by
  by_contra hquad
  obtain ⟨a, b, c, d, htext⟩ := (isIpv4_iff).mp (by simpa using hquad)
  exact colon_not_mem_quad htext h

theorem clientKey_scoped {groups : List Nat} (hshort : (firstElement header).length ≤ maxAddressLength)
    (hcolon : ':' ∈ firstElement header) (h : ScopedText true (withoutBrackets (firstElement header)) groups) :
    clientKey header = groupsKey groups := by
  have hguard : ¬ ((firstElement header).map lowerChar = [] ∨
      ((firstElement header).map lowerChar).length > maxAddressLength) := by
    rw [List.length_map, List.map_eq_nil_iff, not_or]
    exact ⟨List.ne_nil_of_mem hcolon, by omega⟩
  have hquad : ¬ isIpv4 ((firstElement header).map lowerChar) = true := by
    rw [isIpv4_lower, not_ipv4_of_colon hcolon]
    decide
  unfold clientKey
  dsimp only
  rw [if_neg hguard, if_neg hquad, withoutBrackets_lower, (ipv6Groups_iff).mpr h]

/-- A header that spells an address has the key of the address. -/
theorem clientKey_eq (hshort : (firstElement header).length ≤ maxAddressLength) (h : Denotes true (firstElement header) x) :
    clientKey header = x.key := by
  generalize htext : firstElement header = text at h
  cases h with
  | @v4 text a b c d h =>
    have hlower := lower_quad h
    have hguard : ¬ (text = [] ∨ text.length > maxAddressLength) := by
      obtain ⟨ch, rest, hcons, -⟩ := quad_head h
      rw [not_or]
      exact ⟨by simp [hcons], by rw [htext] at hshort; omega⟩
    unfold clientKey
    dsimp only
    rw [htext, hlower, if_neg hguard, if_pos ((isIpv4_iff).mpr ⟨a, b, c, d, h⟩)]
    exact h
  | v6 h =>
    refine clientKey_scoped hshort (by rw [htext]; exact h.colon) ?_
    rw [htext, withoutBrackets_of_head h.head]
    exact h
  | brackets h =>
    refine clientKey_scoped hshort ?_ ?_
    · rw [htext]
      exact List.mem_cons_of_mem _ (List.mem_append_left _ h.colon)
    · rw [htext, withoutBrackets_brackets]
      exact h

theorem clientKey_long (h : (firstElement header).length > maxAddressLength) : clientKey header = unknown := by
  unfold clientKey
  dsimp only
  rw [if_pos (Or.inr (by rwa [List.length_map]))]

theorem clientKey_unknown (h : ∀ x, ¬ Denotes true (firstElement header) x) : clientKey header = unknown := by
  unfold clientKey
  dsimp only
  split
  · rfl
  · have hquad : ¬ isIpv4 ((firstElement header).map lowerChar) = true := by
      rw [isIpv4_lower]
      intro hquad
      obtain ⟨a, b, c, d, htext⟩ := (isIpv4_iff).mp hquad
      exact h _ (.v4 htext)
    rw [if_neg hquad, withoutBrackets_lower]
    cases hgroups : ipv6Groups ((withoutBrackets (firstElement header)).map lowerChar) with
    | none => rfl
    | some groups =>
      have hscoped := (ipv6Groups_iff).mp hgroups
      obtain ⟨address, rfl⟩ := hscoped.groups
      rcases withoutBrackets_cases (firstElement header) with hplain | hbrackets
      · rw [hplain] at hscoped
        exact absurd (.v6 hscoped) (h _)
      · refine absurd ?_ (h (.v6 address))
        rw [hbrackets]
        exact .brackets hscoped

/-! ## The client of a key -/

theorem hexText_digit (h : c ∈ hexText n) : ∃ d < 16, c = Nat.digitChar d := by
  induction n using Nat.strong_induction_on with
  | _ n ih =>
    unfold hexText at h
    by_cases hn : n < 16
    · rw [Nat.toDigits_of_lt_base hn] at h
      exact ⟨n, hn, List.mem_singleton.mp h⟩
    · rw [Nat.toDigits_of_base_le (by decide) (by omega)] at h
      rcases List.mem_append.mp h with h | h
      · exact ih (n / 16) (by omega) h
      · exact ⟨n % 16, Nat.mod_lt n (by decide), List.mem_singleton.mp h⟩

theorem not_mem_hexText (hc : ∀ d < 16, c ≠ Nat.digitChar d) (n : Nat) : c ∉ hexText n := by
  intro h
  obtain ⟨d, hd, hdigit⟩ := hexText_digit h
  exact hc d hd hdigit

theorem hexText_inj (h : hexText m = hexText n) : m = n := toDigits_inj (by decide) (by decide) h

def quadKey (octets : List Nat) : Chars := ['.'].intercalate (octets.map decimalText)

def networkKey (network : List Nat) : Chars := [':'].intercalate (network.map hexText) ++ "::/64".toList

theorem quadText_eq (high low : Nat) : quadText high low = quadKey [high / 256, high % 256, low / 256, low % 256] := by
  have hshift : ∀ n : Nat, n >>> 8 = n / 256 := fun n => Nat.shiftRight_eq_div_pow n 8
  have hmask : ∀ n : Nat, n &&& 0xff = n % 256 := fun n => Nat.and_two_pow_sub_one_eq_mod n 8
  rw [quadText, hshift, hshift, hmask, hmask, quadKey]

/-- The octets of `quad?`. -/
def octetsOf (quad : Nat × Nat × Nat × Nat) : List Nat := [quad.1, quad.2.1, quad.2.2.1, quad.2.2.2]

theorem octetsOf_inj {p q : Nat × Nat × Nat × Nat} (h : octetsOf p = octetsOf q) : p = q := by
  simp only [octetsOf, List.cons.injEq, and_true] at h
  exact Prod.ext h.1 (Prod.ext h.2.1 (Prod.ext h.2.2.1 h.2.2.2))

theorem key_of_quad {quad : Nat × Nat × Nat × Nat} (h : x.quad? = some quad) : x.key = quadKey (octetsOf quad) := by
  cases x with
  | v4 a b c d =>
    rw [← Option.some.inj h]
    rfl
  | v6 groups =>
    simp only [Address.quad?] at h
    split at h
    · next hmapped =>
      rw [Address.key, groupsKey, if_pos hmapped, quadText_eq, ← Option.some.inj h]
      rfl
    · cases h

theorem key_of_network (h : x.quad? = none) : x.key = networkKey x.network ∧ x.network ≠ [] := by
  cases x with
  | v4 a b c d => cases h
  | v6 groups =>
    simp only [Address.quad?] at h
    split at h
    · cases h
    · next hmapped =>
      rw [Address.key, groupsKey, if_neg hmapped]
      refine ⟨rfl, fun hnil => ?_⟩
      have hlength := congrArg List.length hnil
      rw [Address.network, List.length_take, groups.length_eq] at hlength
      cases hlength

theorem quadKey_inj {p q : Nat × Nat × Nat × Nat} (h : quadKey (octetsOf p) = quadKey (octetsOf q)) : p = q := by
  have hparts : ∀ quad, splitChars '.' (quadKey (octetsOf quad)) = (octetsOf quad).map decimalText := by
    intro quad
    refine Text.splitChars_join (by simp [octetsOf]) fun part hpart => ?_
    obtain ⟨n, -, rfl⟩ := List.mem_map.mp hpart
    exact not_mem_octet (by decide) n
  have hmap := hparts p
  rw [h, hparts q] at hmap
  exact octetsOf_inj (List.map_injective_iff.mpr (fun _ _ => decimalText_inj) hmap.symm)

theorem networkKey_inj {p q : List Nat} (hp : p ≠ []) (hq : q ≠ []) (h : networkKey p = networkKey q) : p = q := by
  have hparts : ∀ network : List Nat, network ≠ [] →
      splitChars ':' ([':'].intercalate (network.map hexText)) = network.map hexText := by
    intro network hne
    refine Text.splitChars_join (by simpa using hne) fun part hpart => ?_
    obtain ⟨n, -, rfl⟩ := List.mem_map.mp hpart
    exact not_mem_hexText (by decide) n
  have hmap := hparts p hp
  rw [List.append_cancel_right h, hparts q hq] at hmap
  exact List.map_injective_iff.mpr (fun _ _ => hexText_inj) hmap.symm

theorem mem_quadKey {octets : List Nat} (h : c ∈ quadKey octets) : c = '.' ∨ isDigit c = true := by
  rcases mem_intercalate h with hpoint | ⟨part, hpart, hdigit⟩
  · exact Or.inl (List.mem_singleton.mp hpoint)
  · obtain ⟨n, -, rfl⟩ := List.mem_map.mp hpart
    exact Or.inr (isDigit_decimalText hdigit)

theorem quadKey_ne_networkKey (octets network : List Nat) : quadKey octets ≠ networkKey network := by
  intro h
  have hslash : '/' ∈ networkKey network := List.mem_append_right _ (by decide)
  rw [← h] at hslash
  exact (mem_quadKey hslash).elim (by decide) (by decide)

theorem key_eq_iff (x y : Address) : x.key = y.key ↔ SameClient x y := by
  unfold SameClient
  cases hx : x.quad? with
  | some p =>
    cases hy : y.quad? with
    | some q =>
      rw [key_of_quad hx, key_of_quad hy]
      constructor
      · intro h
        exact ⟨by rw [quadKey_inj h], nofun⟩
      · intro ⟨h, _⟩
        rw [Option.some.inj h]
    | none =>
      rw [key_of_quad hx, (key_of_network hy).1]
      exact ⟨fun h => absurd h (quadKey_ne_networkKey _ _), fun h => absurd h.1 nofun⟩
  | none =>
    cases hy : y.quad? with
    | some q =>
      rw [key_of_quad hy, (key_of_network hx).1]
      exact ⟨fun h => absurd h.symm (quadKey_ne_networkKey _ _), fun h => absurd h.1 nofun⟩
    | none =>
      obtain ⟨hkx, hnx⟩ := key_of_network hx
      obtain ⟨hky, hny⟩ := key_of_network hy
      rw [hkx, hky]
      constructor
      · intro h
        exact ⟨rfl, fun _ => networkKey_inj hnx hny h⟩
      · intro ⟨_, h⟩
        rw [h rfl]

theorem key_ne_unknown (x : Address) : x.key ≠ unknown := by
  cases hx : x.quad? with
  | some p =>
    rw [key_of_quad hx]
    intro h
    have hletter : 'u' ∈ quadKey (octetsOf p) := by
      rw [h]
      decide
    exact (mem_quadKey hletter).elim (by decide) (by decide)
  | none =>
    rw [(key_of_network hx).1]
    intro h
    have hslash : '/' ∈ unknown := by
      rw [← h]
      exact List.mem_append_right _ (by decide)
    exact absurd hslash (by decide)

theorem Denotes.mono (h : Denotes loose text x) : Denotes true text x := by
  cases h with
  | v4 h => exact .v4 h
  | v6 h => exact .v6 h.mono
  | brackets h => exact .brackets h.mono

/-- A first element of at most `maxAddressLength` characters has a key of its own exactly when
    it denotes an address, and one key with another's exactly when they are one client. A
    longer one, and one that denotes nothing, has the key `unknown`. -/
theorem clientKey_identifies :
    (∀ (first second : Option Chars) (x y : Address), (firstElement first).length ≤ maxAddressLength →
      (firstElement second).length ≤ maxAddressLength → Denotes false (firstElement first) x →
      Denotes false (firstElement second) y → (clientKey first = clientKey second ↔ SameClient x y)) ∧
    (∀ (header : Option Chars) (x : Address), (firstElement header).length ≤ maxAddressLength →
      Denotes false (firstElement header) x → clientKey header ≠ unknown) ∧
    (∀ header : Option Chars, (∀ x, ¬ Denotes false (firstElement header) x) → ¬ Misspelled (firstElement header) →
      clientKey header = unknown) ∧
    ∀ header : Option Chars, maxAddressLength < (firstElement header).length → clientKey header = unknown := by
  refine ⟨fun first second x y hfirst hsecond hx hy => ?_, fun header x hshort hx => ?_, fun header hnone hspelled => ?_,
    fun header => clientKey_long⟩
  · rw [clientKey_eq hfirst hx.mono, clientKey_eq hsecond hy.mono]
    exact key_eq_iff x y
  · rw [clientKey_eq hshort hx.mono]
    exact key_ne_unknown x
  · exact clientKey_unknown fun x hx => hspelled ⟨⟨x, hx⟩, hnone⟩

/-- `::ffff:192.0.2.1`. -/
def mappedGroups : Groups := ⟨[0, 0, 0, 0, 0, 0xffff, 0xc000, 0x201], rfl, by decide⟩

theorem mapped_and_plain_are_one_client :
    clientKey (some "[::FFFF:192.0.2.1]".toList) = clientKey (some " 192.0.2.1, 10.0.0.1".toList) := by
  have hquad : QuadText "192.0.2.1".toList 192 0 2 1 := by
    unfold QuadText
    decide
  have hgroup : GroupText "FFFF".toList 0xffff :=
    ⟨by decide, by decide, List.all_eq_true.mp (by decide), by decide⟩
  have hmapped : Denotes false (firstElement (some "[::FFFF:192.0.2.1]".toList)) (.v6 mappedGroups) := by
    have htext : firstElement (some "[::FFFF:192.0.2.1]".toList) =
        '[' :: ([] ++ ':' :: ':' :: ("FFFF".toList ++ ':' :: "192.0.2.1".toList)) ++ [']'] := by decide
    rw [htext]
    exact .brackets (.plain (.compressed (Or.inl ⟨rfl, rfl⟩) (Or.inr (.cons hgroup (.quad rfl hquad))) (by decide)))
  have hplain : Denotes false (firstElement (some " 192.0.2.1, 10.0.0.1".toList)) (.v4 192 0 2 1) := .v4 hquad
  exact ((clientKey_identifies).1 _ _ _ _ (by decide) (by decide) hmapped hplain).mpr ⟨by decide, by decide⟩

/-- `fe80::1`. -/
def linkLocalGroups : Groups := ⟨[0xfe80, 0, 0, 0, 0, 0, 0, 1], rfl, by decide⟩

/-- A header value over the limit is read no further. -/
theorem a_long_zone_id_hides_the_address :
    let header := "fe80::1%".toList ++ List.replicate 60 'e'
    Denotes false (firstElement (some header)) (.v6 linkLocalGroups) ∧ clientKey (some header) = unknown := by
  intro header
  have hleft : GroupText "fe80".toList 0xfe80 :=
    ⟨by decide, by decide, List.all_eq_true.mp (by decide), by decide⟩
  have hright : GroupText "1".toList 1 :=
    ⟨by decide, by decide, List.all_eq_true.mp (by decide), by decide⟩
  have htext : firstElement (some header) = "fe80::1".toList ++ '%' :: List.replicate 60 'e' := by decide
  refine ⟨?_, clientKey_long (by decide)⟩
  rw [htext]
  exact .v6 (.zone (.compressed (Or.inr (.group hleft)) (Or.inr (.group hright)) (by decide)) (Or.inr (by decide)))

example : clientKey (some "1.2.3.4::".toList) = "102:304:0:0::/64".toList := by decide

end Fabrika.App.ClientAddress
