/-
  Fabrika.Lib.Base64 — base64 of byte lists, as `btoa` writes it and `atob` reads it.

  A text is the six-bit groups of the bytes, padded with `=` to a multiple of four. Reading drops
  white space and at most two `=` of a full text, and refuses a character outside the alphabet.
  `base64url` writes the groups in its own alphabet without padding.
-/

import Mathlib.Data.List.Basic
import Mathlib.Data.List.TakeDrop

namespace Fabrika.Lib.Base64

def alphabet : List Char := "ABCDEFGHIJKLMNOPQRSTUVWXYZabcdefghijklmnopqrstuvwxyz0123456789+/".toList

def digit (n : Nat) : Char := alphabet.getD n '='

def value (c : Char) : Option Nat := alphabet.idxOf? c

/-- The six-bit groups of the bytes; the last is filled with zeros. -/
def sextets : List UInt8 → List Nat
  | [] => []
  | [a] => [a.toNat / 4, a.toNat % 4 * 16]
  | [a, b] => [a.toNat / 4, a.toNat % 4 * 16 + b.toNat / 16, b.toNat % 16 * 4]
  | a :: b :: c :: rest =>
    a.toNat / 4 :: (a.toNat % 4 * 16 + b.toNat / 16) :: (b.toNat % 16 * 4 + c.toNat / 64) :: c.toNat % 64 :: sextets rest

/-- The bytes of six-bit groups; bits left over are dropped. -/
def bytesOf : List Nat → List UInt8
  | a :: b :: c :: d :: rest =>
    UInt8.ofNat (a * 4 + b / 16) :: UInt8.ofNat (b % 16 * 16 + c / 4) :: UInt8.ofNat (c % 4 * 64 + d) :: bytesOf rest
  | [a, b, c] => [UInt8.ofNat (a * 4 + b / 16), UInt8.ofNat (b % 16 * 16 + c / 4)]
  | [a, b] => [UInt8.ofNat (a * 4 + b / 16)]
  | _ => []

/-- `btoa`. -/
def encode (bytes : List UInt8) : List Char :=
  (sextets bytes).map digit ++ List.replicate ((3 - bytes.length % 3) % 3) '='

def isBlank (c : Char) : Bool := c = ' ' || c = '\t' || c = '\n' || c = '\x0c' || c = '\r'

def dropPadding (data : List Char) : List Char :=
  if data.length % 4 = 0 then
    match data.reverse with
    | '=' :: '=' :: rest => rest.reverse
    | '=' :: rest => rest.reverse
    | _ => data
  else data

/-- The bytes `atob` reads: nothing where it throws. -/
def decode (text : List Char) : Option (List UInt8) :=
  let data := dropPadding (text.filter fun c => !isBlank c)
  if data.length % 4 = 1 then none else (data.mapM value).map bytesOf

/-- `atob` as the code has it: each byte is a character. -/
def atob (text : String) : Option String :=
  (decode text.toList).map fun bytes => String.ofList (bytes.map fun b => Char.ofNat b.toNat)

example : atob "cHhfYTpi" = some "px_a:b" ∧ atob "cHg=" = some "px" ∧ atob "c" = none ∧ atob "c=Hg" = none := by decide

/-! ## Reading what was written -/

theorem alphabet_eq : alphabet =
  ['A', 'B', 'C', 'D', 'E', 'F', 'G', 'H', 'I', 'J', 'K', 'L', 'M', 'N', 'O', 'P', 'Q', 'R', 'S', 'T', 'U', 'V', 'W',
    'X', 'Y', 'Z', 'a', 'b', 'c', 'd', 'e', 'f', 'g', 'h', 'i', 'j', 'k', 'l', 'm', 'n', 'o', 'p', 'q', 'r', 's', 't',
    'u', 'v', 'w', 'x', 'y', 'z', '0', '1', '2', '3', '4', '5', '6', '7', '8', '9', '+', '/'] :=
  String.toList_ofList

theorem digit_table (n : Nat) (h : n < 64) : value (digit n) = some n ∧ digit n ≠ '=' ∧ isBlank (digit n) = false := by
  have hall : ∀ n < 64, value (digit n) = some n ∧ digit n ≠ '=' ∧ isBlank (digit n) = false := by
    simp only [value, digit, alphabet_eq]
    decide
  exact hall n h

theorem sextets_lt (bytes : List UInt8) : ∀ n ∈ sextets bytes, n < 64 := by
  fun_induction sextets bytes with
  | case1 => simp
  | case2 a =>
    have := a.toNat_lt
    intro n hn
    simp only [List.mem_cons, List.not_mem_nil, or_false] at hn
    omega
  | case3 a b =>
    have := a.toNat_lt
    have := b.toNat_lt
    intro n hn
    simp only [List.mem_cons, List.not_mem_nil, or_false] at hn
    omega
  | case4 a b c rest ih =>
    have := a.toNat_lt
    have := b.toNat_lt
    have := c.toNat_lt
    intro n hn
    simp only [List.mem_cons] at hn
    rcases hn with hn | hn | hn | hn | hn
    · omega
    · omega
    · omega
    · omega
    · exact ih n hn

theorem ofNat_byte {b : UInt8} {n : Nat} (h : n = b.toNat) : UInt8.ofNat n = b := by
  rw [h, UInt8.ofNat_toNat]

theorem bytesOf_sextets (bytes : List UInt8) : bytesOf (sextets bytes) = bytes := by
  fun_induction sextets bytes with
  | case1 => rfl
  | case2 a =>
    have := a.toNat_lt
    simp only [bytesOf]
    rw [ofNat_byte (b := a) (by omega)]
  | case3 a b =>
    have := a.toNat_lt
    have := b.toNat_lt
    simp only [bytesOf]
    rw [ofNat_byte (b := a) (by omega), ofNat_byte (b := b) (by omega)]
  | case4 a b c rest ih =>
    have := a.toNat_lt
    have := b.toNat_lt
    have := c.toNat_lt
    simp only [bytesOf, ih]
    rw [ofNat_byte (b := a) (by omega), ofNat_byte (b := b) (by omega), ofNat_byte (b := c) (by omega)]

/-- The groups and the padding: as many as the bytes left over of a triple ask for. -/
theorem sextets_length (bytes : List UInt8) : ((sextets bytes).length + (3 - bytes.length % 3) % 3) % 4 = 0 ∧
    ((3 - bytes.length % 3) % 3 = 0 → (sextets bytes).length % 4 = 0) := by
  fun_induction sextets bytes with
  | case1 => simp
  | case2 a => simp
  | case3 a b => simp
  | case4 a b c rest ih =>
    simp only [List.length_cons]
    omega

theorem encode_filter (bytes : List UInt8) : (encode bytes).filter (fun c => !isBlank c) = encode bytes := by
  rw [List.filter_eq_self]
  intro c hc
  rcases List.mem_append.mp hc with hc | hc
  · obtain ⟨n, hn, rfl⟩ := List.mem_map.mp hc
    rw [(digit_table n (sextets_lt bytes n hn)).2.2]
    rfl
  · rw [List.eq_of_mem_replicate hc]
    decide

theorem dropPadding_encode (bytes : List UInt8) : dropPadding (encode bytes) = (sextets bytes).map digit := by
  have hlength : (encode bytes).length % 4 = 0 := by
    simp only [encode, List.length_append, List.length_map, List.length_replicate]
    exact (sextets_length bytes).1
  have hpad : (3 - bytes.length % 3) % 3 = 0 ∨ (3 - bytes.length % 3) % 3 = 1 ∨ (3 - bytes.length % 3) % 3 = 2 := by omega
  -- The last group is a digit, so the padding ends where it was put.
  have hlast : ∀ rest, ((sextets bytes).map digit).reverse ≠ '=' :: rest := by
    intro rest e
    have hmem : '=' ∈ ((sextets bytes).map digit).reverse := by simp [e]
    obtain ⟨n, hn, hdigit⟩ := List.mem_map.mp (List.mem_reverse.mp hmem)
    exact (digit_table n (sextets_lt bytes n hn)).2.1 hdigit
  unfold dropPadding
  rw [if_pos hlength]
  unfold encode
  rcases hpad with hpad | hpad | hpad
  · rw [hpad, List.replicate_zero, List.append_nil]
    split
    · next e => exact absurd e (hlast _)
    · next e => exact absurd e (hlast _)
    · rfl
  · rw [hpad]
    simp only [List.replicate_one, List.reverse_append, List.reverse_singleton, List.singleton_append]
    exact List.reverse_reverse _
  · rw [hpad]
    simp only [List.replicate_succ, List.replicate_zero, List.reverse_append, List.reverse_cons, List.reverse_nil,
      List.nil_append, List.cons_append]
    exact List.reverse_reverse _

theorem mapM_value (ns : List Nat) (h : ∀ n ∈ ns, n < 64) : (ns.map digit).mapM value = some ns := by
  induction ns with
  | nil => rfl
  | cons n rest ih =>
    simp [List.mapM_cons, (digit_table n (h n (by simp))).1, ih (fun m hm => h m (by simp [hm]))]

theorem decode_encode (bytes : List UInt8) : decode (encode bytes) = some bytes := by
  have hlength : ((sextets bytes).map digit).length % 4 ≠ 1 := by
    rw [List.length_map]
    have := sextets_length bytes
    omega
  unfold decode
  rw [encode_filter, dropPadding_encode, if_neg hlength, mapM_value _ (sextets_lt bytes), Option.map_some, bytesOf_sextets]

/-! ## `base64url` -/

def urlAlphabet : List Char := "ABCDEFGHIJKLMNOPQRSTUVWXYZabcdefghijklmnopqrstuvwxyz0123456789-_".toList

def urlDigit (n : Nat) : Char := urlAlphabet.getD n '='

/-- Either alphabet is read. -/
def urlValue (c : Char) : Option Nat := (urlAlphabet.idxOf? c).or (value c)

/-- `Buffer.toString('base64url')`. -/
def encodeUrl (bytes : List UInt8) : List Char := (sextets bytes).map urlDigit

/-- `Buffer.from(text, 'base64url')`: a character outside the alphabets is skipped. -/
def decodeUrl (text : List Char) : List UInt8 := bytesOf (text.filterMap urlValue)

theorem urlAlphabet_eq : urlAlphabet =
  ['A', 'B', 'C', 'D', 'E', 'F', 'G', 'H', 'I', 'J', 'K', 'L', 'M', 'N', 'O', 'P', 'Q', 'R', 'S', 'T', 'U', 'V', 'W',
    'X', 'Y', 'Z', 'a', 'b', 'c', 'd', 'e', 'f', 'g', 'h', 'i', 'j', 'k', 'l', 'm', 'n', 'o', 'p', 'q', 'r', 's', 't',
    'u', 'v', 'w', 'x', 'y', 'z', '0', '1', '2', '3', '4', '5', '6', '7', '8', '9', '-', '_'] :=
  String.toList_ofList

theorem urlValue_urlDigit (n : Nat) (h : n < 64) : urlValue (urlDigit n) = some n := by
  have hall : ∀ n < 64, urlValue (urlDigit n) = some n := by
    simp only [urlValue, urlDigit, value, urlAlphabet_eq, alphabet_eq]
    decide
  exact hall n h

theorem filterMap_urlValue (ns : List Nat) (h : ∀ n ∈ ns, n < 64) : (ns.map urlDigit).filterMap urlValue = ns := by
  induction ns with
  | nil => rfl
  | cons n rest ih =>
    rw [List.map_cons, List.filterMap_cons_some (urlValue_urlDigit n (h n (by simp))), ih fun m hm => h m (by simp [hm])]

theorem decodeUrl_encodeUrl (bytes : List UInt8) : decodeUrl (encodeUrl bytes) = bytes := by
  rw [decodeUrl, encodeUrl, filterMap_urlValue _ (sextets_lt bytes), bytesOf_sextets]

end Fabrika.Lib.Base64
