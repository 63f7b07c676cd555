/-
  Fabrika.Lib.Utf16 — the code units of a JavaScript text and the characters they spell.

  `usvString` is the conversion every API that takes a `USVString` or writes UTF-8 makes: a
  surrogate without its partner becomes U+FFFD. It keeps exactly the texts that are the code
  units of characters (`IsUnicode`, `codeUnits_usvString`).
-/

import Fabrika.Lib.Json

namespace Fabrika.Lib

/-- The code points of a text. -/
def codePoints : Units → List Nat
  | [] => []
  | [u] => [if Json.isHighSurrogate u || Json.isLowSurrogate u then 0xFFFD else u]
  | u :: v :: rest =>
    if Json.isHighSurrogate u && Json.isLowSurrogate v then
      (0x10000 + (u - 0xD800) * 0x400 + (v - 0xDC00)) :: codePoints rest
    else (if Json.isHighSurrogate u || Json.isLowSurrogate u then 0xFFFD else u) :: codePoints (v :: rest)

/-- A text as a `USVString`: U+FFFD for a surrogate without its partner. -/
def usvString (text : Units) : String := String.ofList ((codePoints text).map Char.ofNat)

/-- A text without a surrogate that lacks its partner. -/
def IsUnicode (text : Units) : Prop := ∃ s : String, codeUnits s = text

variable {u : Nat}

theorem codePoints_cons (h : u < 0xD800 ∨ 0xDFFF < u) (rest : Units) : codePoints (u :: rest) = u :: codePoints rest := by
  have hhigh : Json.isHighSurrogate u = false := by
    simp only [Json.isHighSurrogate, Bool.and_eq_false_iff, decide_eq_false_iff_not]
    omega
  have hlow : Json.isLowSurrogate u = false := by
    simp only [Json.isLowSurrogate, Bool.and_eq_false_iff, decide_eq_false_iff_not]
    omega
  cases rest with
  | nil => simp [codePoints, hhigh, hlow]
  | cons v rest => simp [codePoints, hhigh, hlow]

theorem codePoints_pair {v : Nat} (hu : 0xD800 ≤ u ∧ u ≤ 0xDBFF) (hv : 0xDC00 ≤ v ∧ v ≤ 0xDFFF) (rest : Units) :
    codePoints (u :: v :: rest) = (0x10000 + (u - 0xD800) * 0x400 + (v - 0xDC00)) :: codePoints rest := by
  have hhigh : Json.isHighSurrogate u = true := by
    simp [Json.isHighSurrogate, hu]
  have hlow : Json.isLowSurrogate v = true := by
    simp [Json.isLowSurrogate, hv]
  simp [codePoints, hhigh, hlow]

theorem codePoints_codeUnits (s : String) : codePoints (codeUnits s) = s.toList.map Char.toNat := by
  unfold codeUnits
  induction s.toList with
  | nil => rfl
  | cons c rest ih =>
    have hvalid : c.toNat < 0xD800 ∨ (0xDFFF < c.toNat ∧ c.toNat < 0x110000) := c.valid
    rw [List.flatMap_cons, List.map_cons]
    by_cases hc : c.toNat < 0x10000
    · rw [if_pos hc, List.cons_append, List.nil_append, codePoints_cons (by omega), ih]
    · have hpoint : 0x10000 + (0xD800 + (c.toNat - 0x10000) / 0x400 - 0xD800) * 0x400 +
          (0xDC00 + (c.toNat - 0x10000) % 0x400 - 0xDC00) =
          c.toNat := by omega
      rw [if_neg hc, List.cons_append, List.cons_append, List.nil_append, codePoints_pair (by omega) (by omega), ih, hpoint]

theorem usvString_codeUnits (s : String) : usvString (codeUnits s) = s := by
  rw [usvString, codePoints_codeUnits, List.map_map]
  have hid : s.toList.map (Char.ofNat ∘ Char.toNat) = s.toList := List.map_id'' Char.ofNat_toNat _
  rw [hid, String.ofList_toList]

theorem codeUnits_usvString {text : Units} (h : IsUnicode text) : codeUnits (usvString text) = text := by
  obtain ⟨s, rfl⟩ := h
  rw [usvString_codeUnits]

theorem usvString_inj {a b : Units} (ha : IsUnicode a) (hb : IsUnicode b) (h : usvString a = usvString b) : a = b := by
  rw [← codeUnits_usvString ha, h, codeUnits_usvString hb]

theorem toNat_ofNat {n : Nat} (h : n.isValidChar) : (Char.ofNat n).toNat = n := by
  simp [Char.ofNat, h, Char.ofNatAux, Char.toNat]

theorem isUnicode_of_lt {text : Units} (h : ∀ u ∈ text, u < 0xD800) : IsUnicode text := by
  refine ⟨String.ofList (text.map Char.ofNat), ?_⟩
  rw [codeUnits, String.toList_ofList, List.flatMap_map]
  induction text with
  | nil => rfl
  | cons u rest ih =>
    have hu : u < 0xD800 := h u List.mem_cons_self
    have htoNat : (Char.ofNat u).toNat = u := toNat_ofNat (.inl hu)
    rw [List.flatMap_cons, ih fun v hv => h v (List.mem_cons_of_mem _ hv), htoNat, if_pos (by omega)]
    rfl

theorem isUnicode_append {a b : Units} (ha : IsUnicode a) (hb : IsUnicode b) : IsUnicode (a ++ b) := by
  obtain ⟨s, rfl⟩ := ha
  obtain ⟨t, rfl⟩ := hb
  exact ⟨s ++ t, by simp [codeUnits]⟩

theorem codeUnits_lt (s : String) : ∀ u ∈ codeUnits s, u < 0x10000 := by
  intro u hu
  obtain ⟨c, _, hc⟩ := List.mem_flatMap.mp hu
  have hvalid : c.toNat < 0xD800 ∨ (0xDFFF < c.toNat ∧ c.toNat < 0x110000) := c.valid
  split at hc
  · rw [List.mem_singleton.mp hc]
    assumption
  · simp only [List.mem_cons, List.not_mem_nil, or_false] at hc
    omega

theorem codeUnits_singleton {n : Nat} (h : n.isValidChar) : codeUnits (String.singleton (Char.ofNat n)) =
    if n < 0x10000 then [n] else [0xD800 + (n - 0x10000) / 0x400, 0xDC00 + (n - 0x10000) % 0x400] := by
  simp only [codeUnits, String.toList_singleton, List.flatMap_cons, List.flatMap_nil, List.append_nil, toNat_ofNat h]

/-- One unit that is no surrogate is a text. -/
theorem isUnicode_unit (h : u < 0xD800 ∨ (0xDFFF < u ∧ u < 0x10000)) : IsUnicode [u] := by
  have hvalid : u.isValidChar := by
    rcases h with h | h
    · exact .inl h
    · exact .inr ⟨h.1, by omega⟩
  refine ⟨_, (codeUnits_singleton hvalid).trans ?_⟩
  rw [if_pos (by omega)]

/-- A surrogate and its partner are a text. -/
theorem isUnicode_pair {v : Nat} (hu : 0xD800 ≤ u ∧ u ≤ 0xDBFF) (hv : 0xDC00 ≤ v ∧ v ≤ 0xDFFF) : IsUnicode [u, v] := by
  obtain ⟨n, hn⟩ : ∃ n, n = 0x10000 + (u - 0xD800) * 0x400 + (v - 0xDC00) := ⟨_, rfl⟩
  have hvalid : n.isValidChar := .inr ⟨by omega, by omega⟩
  have hhigh : 0xD800 + (n - 0x10000) / 0x400 = u := by omega
  have hlow : 0xDC00 + (n - 0x10000) % 0x400 = v := by omega
  refine ⟨_, (codeUnits_singleton hvalid).trans ?_⟩
  rw [if_neg (by omega), hhigh, hlow]

theorem isUnicode_unicodeEscape (u : Nat) : IsUnicode (Json.unicodeEscape u) := by
  have hdigit : ∀ d, Json.hexDigit (d % 16) < 0xD800 := by
    intro d
    unfold Json.hexDigit
    split <;> omega
  apply isUnicode_of_lt
  intro v hv
  simp only [Json.unicodeEscape, List.mem_cons, List.not_mem_nil, or_false] at hv
  rcases hv with rfl | rfl | rfl | rfl | rfl | rfl
  · omega
  · omega
  · exact hdigit _
  · exact hdigit _
  · exact hdigit _
  · exact hdigit _

/-- A quoted unit is a text, a surrogate being written as an escape. -/
theorem isUnicode_escape (h : u < 0x10000) : IsUnicode (Json.escape u) := by
  have hshort : ∀ c, c < 0x80 → IsUnicode [0x5c, c] := by
    intro c hc
    apply isUnicode_of_lt
    intro v hv
    simp only [List.mem_cons, List.not_mem_nil, or_false] at hv
    omega
  unfold Json.escape
  split
  · exact hshort _ (by decide)
  split
  · exact hshort _ (by decide)
  split
  · exact hshort _ (by decide)
  split
  · exact hshort _ (by decide)
  split
  · exact hshort _ (by decide)
  split
  · exact hshort _ (by decide)
  split
  · exact hshort _ (by decide)
  split
  · exact isUnicode_unicodeEscape u
  · rename_i hplain
    apply isUnicode_unit
    simp only [Json.isHighSurrogate, Json.isLowSurrogate, Bool.and_eq_true, decide_eq_true_eq] at hplain
    omega

theorem isUnicode_quoteUnits (s : Units) (h : ∀ u ∈ s, u < 0x10000) : IsUnicode (Json.quoteUnits s) := by
  fun_induction Json.quoteUnits s with
  | case1 => exact ⟨"", rfl⟩
  | case2 u => exact isUnicode_escape (h u List.mem_cons_self)
  | case3 u v s hpair ih =>
    simp only [Json.isHighSurrogate, Json.isLowSurrogate, Bool.and_eq_true, decide_eq_true_eq] at hpair
    exact isUnicode_append (isUnicode_pair hpair.1 hpair.2) (ih fun w hw => h w (by simp [hw]))
  | case4 u v s hpair ih =>
    exact isUnicode_append (isUnicode_escape (h u List.mem_cons_self)) (ih fun w hw => h w (List.mem_cons_of_mem _ hw))

theorem isUnicode_quote (s : Units) (h : ∀ u ∈ s, u < 0x10000) : IsUnicode (Json.quote s) := by
  have hmark : IsUnicode [0x22] := ⟨"\"", rfl⟩
  exact isUnicode_append hmark (isUnicode_append (isUnicode_quoteUnits s h) hmark)

end Fabrika.Lib
