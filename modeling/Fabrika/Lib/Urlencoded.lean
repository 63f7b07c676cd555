/-
  Fabrika.Lib.Urlencoded — `URLSearchParams`: pairs of texts, written and read as
  application/x-www-form-urlencoded.

  A text is the sequence of characters a `USVString` is. What is written is ASCII and kept as
  its bytes. Bytes that are no UTF-8 are read as U+FFFD, one for each longest start of a
  sequence, as the decoders of the web do.

  Proved: the pairs written are the pairs read (`parse_serialize`).
-/

import Mathlib.Data.List.Basic
import Mathlib.Tactic.IntervalCases

namespace Fabrika.Lib.Urlencoded

abbrev Params := List (String × String)

abbrev Bytes := List UInt8

/-- The value replaces the first pair of the name and the others of it go. -/
def set (name value : String) : Params → Params
  | [] => [(name, value)]
  | (other, old) :: rest =>
    if other = name then (name, value) :: rest.filter fun pair => pair.1 ≠ name else (other, old) :: set name value rest

/-! ## Writing -/

def utf8 (text : String) : Bytes := text.toList.flatMap String.utf8EncodeChar

/-- The bytes that stand for themselves: letters, digits and `*-._`. -/
def isPlain (b : UInt8) : Bool :=
  (0x30 ≤ b && b ≤ 0x39) || (0x41 ≤ b && b ≤ 0x5a) || (0x61 ≤ b && b ≤ 0x7a) || b == 0x2a || b == 0x2d || b == 0x2e || b == 0x5f

def hexDigit (n : Nat) : UInt8 := if n < 10 then (0x30 + n).toUInt8 else (0x37 + n).toUInt8

def encodeByte (b : UInt8) : Bytes :=
  if isPlain b then [b] else if b = 0x20 then [0x2b] else [0x25, hexDigit (b.toNat / 16), hexDigit (b.toNat % 16)]

def encode (text : String) : Bytes := (utf8 text).flatMap encodeByte

def pairText (pair : String × String) : Bytes := encode pair.1 ++ 0x3d :: encode pair.2

/-- `params.toString()`. -/
def serialize (params : Params) : Bytes := [0x26].intercalate (params.map pairText)

/-! ## Reading -/

def hexValue (b : UInt8) : Option Nat :=
  if 0x30 ≤ b ∧ b ≤ 0x39 then some (b.toNat - 0x30)
  else if 0x41 ≤ b ∧ b ≤ 0x46 then some (b.toNat - 0x37)
  else if 0x61 ≤ b ∧ b ≤ 0x66 then some (b.toNat - 0x57)
  else none

def escaped (b high low : UInt8) : Option UInt8 :=
  if b = 0x25 then do return (16 * (← hexValue high) + (← hexValue low)).toUInt8 else none

def percentDecode : Bytes → Bytes
  | [] => []
  | [b] => [b]
  | [b, c] => [b, c]
  | b :: high :: low :: rest =>
    match escaped b high low with
    | some c => c :: percentDecode rest
    | none => b :: percentDecode (high :: low :: rest)

def plusToSpace (bytes : Bytes) : Bytes := bytes.map fun b => if b = 0x2b then 0x20 else b

/-- Of a sequence's first byte: how many follow, and the bounds of the second. -/
def leadByte (b : UInt8) : Nat × UInt8 × UInt8 :=
  if 0xc2 ≤ b ∧ b ≤ 0xdf then (1, 0x80, 0xbf)
  else if b = 0xe0 then (2, 0xa0, 0xbf)
  else if b = 0xed then (2, 0x80, 0x9f)
  else if 0xe1 ≤ b ∧ b ≤ 0xef then (2, 0x80, 0xbf)
  else if b = 0xf0 then (3, 0x90, 0xbf)
  else if 0xf1 ≤ b ∧ b ≤ 0xf3 then (3, 0x80, 0xbf)
  else if b = 0xf4 then (3, 0x80, 0x8f)
  else (0, 0x80, 0xbf)

/-- How many bytes of a sequence cut short one U+FFFD stands for. -/
def malformed : Bytes → Nat
  | [] => 0
  | b :: rest =>
    match leadByte b, rest with
    | (needed + 1, low, high), second :: more =>
      if low ≤ second ∧ second ≤ high then 2 + ((more.take needed).takeWhile fun c => 0x80 ≤ c && c ≤ 0xbf).length else 1
    | _, _ => 1

def decodeUtf8 : Nat → Bytes → List Char
  | 0, _ => []
  | fuel + 1, bytes =>
    if bytes = [] then []
    else match bytes.toByteArray.utf8DecodeChar? 0 with
      | some c => c :: decodeUtf8 fuel (bytes.drop c.utf8Size)
      | none => '\ufffd' :: decodeUtf8 fuel (bytes.drop (malformed bytes))

def decode (bytes : Bytes) : String :=
  let octets := percentDecode (plusToSpace bytes)
  String.ofList (decodeUtf8 octets.length octets)

def parsePair (bytes : Bytes) : String × String :=
  (decode (bytes.takeWhile (· ≠ 0x3d)), decode ((bytes.dropWhile (· ≠ 0x3d)).drop 1))

/-- `new URLSearchParams(text)`. -/
def parse (bytes : Bytes) : Params := ((bytes.splitOn 0x26).filter (· ≠ [])).map parsePair

/-! ## What is written is read -/

variable {n : Nat}

theorem hexValue_hexDigit (h : n < 16) : hexValue (hexDigit n) = some n := by
  interval_cases n <;> decide

theorem hexDigit_ne_plus (h : n < 16) : hexDigit n ≠ 0x2b := by
  interval_cases n <;> decide

theorem isPlain_hexDigit (h : n < 16) : isPlain (hexDigit n) = true := by
  interval_cases n <;> decide

variable {b : UInt8}

theorem percentDecode_cons (h : b ≠ 0x25) (rest : Bytes) : percentDecode (b :: rest) = b :: percentDecode rest := by
  match rest with
  | [] => rfl
  | [_] => rfl
  | _ :: _ :: _ => simp [percentDecode, escaped, h]

theorem decode_encodeByte (b : UInt8) (rest : Bytes) :
    percentDecode (plusToSpace (encodeByte b ++ rest)) = b :: percentDecode (plusToSpace rest) := by
  unfold encodeByte
  by_cases hplain : isPlain b = true
  · have hplus : b ≠ 0x2b := by
      rintro rfl
      cases hplain
    have hpercent : b ≠ 0x25 := by
      rintro rfl
      cases hplain
    simp only [hplain, if_true, List.cons_append, List.nil_append, plusToSpace, List.map_cons, hplus, if_false]
    exact percentDecode_cons hpercent _
  by_cases hspace : b = 0x20
  · subst hspace
    exact percentDecode_cons (by decide) _
  · have hb : b.toNat < 256 := b.toNat_lt
    have hhigh : b.toNat / 16 < 16 := by omega
    have hlow : b.toNat % 16 < 16 := by omega
    have hvalue : (16 * (b.toNat / 16) + b.toNat % 16).toUInt8 = b := by
      rw [Nat.div_add_mod]
      exact UInt8.ofNat_toNat
    have hescaped : escaped 0x25 (hexDigit (b.toNat / 16)) (hexDigit (b.toNat % 16)) = some b := by
      rw [escaped, if_pos rfl, hexValue_hexDigit hhigh, hexValue_hexDigit hlow]
      exact congrArg some hvalue
    simp [hplain, hspace, plusToSpace, hexDigit_ne_plus hhigh, hexDigit_ne_plus hlow, percentDecode, hescaped]

theorem percentDecode_encode (bytes : Bytes) : percentDecode (plusToSpace (bytes.flatMap encodeByte)) = bytes := by
  induction bytes with
  | nil => rfl
  | cons b rest ih => rw [List.flatMap_cons, decode_encodeByte, ih]

theorem decodeUtf8_encode (chars : List Char) :
    ∀ fuel, (chars.flatMap String.utf8EncodeChar).length ≤ fuel →
    decodeUtf8 fuel (chars.flatMap String.utf8EncodeChar) = chars := by
  induction chars with
  | nil =>
    intro fuel _
    cases fuel with
    | zero => rfl
    | succ fuel => rfl
  | cons c rest ih =>
    intro fuel hfuel
    have hsize : 0 < c.utf8Size := c.utf8Size_pos
    rw [List.flatMap_cons, List.length_append, String.length_utf8EncodeChar] at hfuel
    cases fuel with
    | zero => omega
    | succ fuel =>
      have hne : String.utf8EncodeChar c ++ rest.flatMap String.utf8EncodeChar ≠ [] := by
        intro hnil
        have := congrArg List.length hnil
        rw [List.length_append, String.length_utf8EncodeChar, List.length_nil] at this
        omega
      have hread : (String.utf8EncodeChar c ++ rest.flatMap String.utf8EncodeChar).toByteArray.utf8DecodeChar? 0 = some c := by
        rw [List.toByteArray_append]
        exact ByteArray.utf8DecodeChar?_utf8EncodeChar_append
      have hdrop : (String.utf8EncodeChar c ++ rest.flatMap String.utf8EncodeChar).drop c.utf8Size =
          rest.flatMap String.utf8EncodeChar := by
        rw [← String.length_utf8EncodeChar, List.drop_left]
      rw [List.flatMap_cons, decodeUtf8, if_neg hne, hread]
      dsimp only
      rw [hdrop, ih fuel (by omega)]

/-- A byte of ASCII stands for its own character only. -/
theorem not_mem_utf8EncodeChar {c : Char} (hb : b.toNat < 0x80) (hc : c.toNat ≠ b.toNat) : b ∉ String.utf8EncodeChar c := by
  have hpast : ∀ n : Nat, 0x80 ≤ n → n < 0x100 → b ≠ UInt8.ofNat n := by
    intro n hlow hhigh heq
    have hn := congrArg UInt8.toNat heq
    rw [UInt8.toNat_ofNat', Nat.mod_eq_of_lt hhigh] at hn
    omega
  have hvalue : c.val.toNat = c.toNat := rfl
  have hlast : c.toNat < 0x110000 := by
    obtain h | ⟨-, h⟩ := c.valid
    · exact lt_trans h (by decide)
    · exact h
  unfold String.utf8EncodeChar
  dsimp only
  rw [hvalue]
  by_cases hone : c.toNat ≤ 0x7f
  · rw [if_pos hone, List.mem_singleton]
    intro heq
    have hn := congrArg UInt8.toNat heq
    rw [UInt8.toNat_ofNat', Nat.mod_eq_of_lt (by omega)] at hn
    omega
  · rw [if_neg hone]
    by_cases htwo : c.toNat ≤ 0x7ff
    · rw [if_pos htwo]
      simp only [List.mem_cons, List.not_mem_nil, or_false, not_or]
      exact ⟨hpast _ (by omega) (by omega), hpast _ (by omega) (by omega)⟩
    · rw [if_neg htwo]
      by_cases hthree : c.toNat ≤ 0xffff
      · rw [if_pos hthree]
        simp only [List.mem_cons, List.not_mem_nil, or_false, not_or]
        exact ⟨hpast _ (by omega) (by omega), hpast _ (by omega) (by omega), hpast _ (by omega) (by omega)⟩
      · rw [if_neg hthree]
        simp only [List.mem_cons, List.not_mem_nil, or_false, not_or]
        exact ⟨hpast _ (by omega) (by omega), hpast _ (by omega) (by omega), hpast _ (by omega) (by omega),
          hpast _ (by omega) (by omega)⟩

theorem decode_encode (text : String) : decode (encode text) = text := by
  unfold decode encode
  rw [percentDecode_encode]
  dsimp only
  rw [utf8, decodeUtf8_encode _ _ le_rfl, String.ofList_toList]

theorem isPlain_of_mem_encodeByte {c : UInt8} (h : c ∈ encodeByte b) : isPlain c = true ∨ c = 0x2b ∨ c = 0x25 := by
  have hb : b.toNat < 256 := b.toNat_lt
  unfold encodeByte at h
  split at h
  · rw [List.mem_singleton.mp h]
    exact .inl ‹_›
  split at h
  · exact .inr (.inl (List.mem_singleton.mp h))
  · simp only [List.mem_cons, List.not_mem_nil, or_false] at h
    obtain rfl | rfl | rfl := h
    · exact .inr (.inr rfl)
    · exact .inl (isPlain_hexDigit (by omega))
    · exact .inl (isPlain_hexDigit (by omega))

/-- A written text holds no separator. -/
theorem not_mem_encode {sep : UInt8} (hplain : isPlain sep = false) (hplus : sep ≠ 0x2b) (hpercent : sep ≠ 0x25) (text : String) :
    sep ∉ encode text := by
  intro hmem
  obtain ⟨b, _, hb⟩ := List.mem_flatMap.mp hmem
  rcases isPlain_of_mem_encodeByte hb with h | h | h
  · rw [hplain] at h
    cases h
  · exact hplus h
  · exact hpercent h

theorem parsePair_pairText (pair : String × String) : parsePair (pairText pair) = pair := by
  have hname : ∀ b ∈ encode pair.1, decide (b ≠ (0x3d : UInt8)) = true := by
    intro b hb
    refine decide_eq_true ?_
    rintro rfl
    exact not_mem_encode rfl (by decide) (by decide) _ hb
  rw [parsePair, pairText, List.takeWhile_append_of_pos hname, List.dropWhile_append_of_pos hname]
  simp [decode_encode]

theorem not_mem_pairText (pair : String × String) : (0x26 : UInt8) ∉ pairText pair := by
  intro hmem
  rcases List.mem_append.mp hmem with hmem | hmem
  · exact not_mem_encode rfl (by decide) (by decide) _ hmem
  rcases List.mem_cons.mp hmem with hmem | hmem
  · exact absurd hmem (by decide)
  · exact not_mem_encode rfl (by decide) (by decide) _ hmem

theorem pairText_ne_nil (pair : String × String) : pairText pair ≠ [] := by
  simp [pairText]

theorem parse_serialize (params : Params) : parse (serialize params) = params := by
  cases params with
  | nil => rfl
  | cons pair rest =>
    have hsplit : (serialize (pair :: rest)).splitOn 0x26 = (pair :: rest).map pairText := by
      apply List.splitOn_intercalate
      · intro part hpart
        obtain ⟨other, _, rfl⟩ := List.mem_map.mp hpart
        exact not_mem_pairText other
      · simp
    have hfilter : ((pair :: rest).map pairText).filter (· ≠ []) = (pair :: rest).map pairText := by
      rw [List.filter_eq_self]
      intro part hpart
      obtain ⟨other, _, rfl⟩ := List.mem_map.mp hpart
      simp [pairText_ne_nil]
    rw [parse, hsplit, hfilter, List.map_map]
    exact List.map_id'' parsePair_pairText _

end Fabrika.Lib.Urlencoded
