/-
  Fabrika.Lib.Sha2 — SHA-256 as FIPS 180-4 states it, over bit strings.

  Words are 32 bits and additions are modulo 2^32. The initial hash and the round constants are
  what the standard says they are: the first 32 bits of the fractional parts of the square and
  cube roots of the first primes. A message is padded with a one, the least number of zeros that
  leaves 64 bits of the last block, and its length in bits.

  Below the definitions stand the facts by which an implementation over bytes meets them: the
  bits of a number most significant first (`toBits`) and the value of a bit string (`value`).
-/

import Mathlib.Data.List.Basic
import Mathlib.Tactic.Ring

namespace Fabrika.Lib.Sha2

abbrev Word := BitVec 32

abbrev Bits := List Bool

/-! ## Functions (4.1.2) -/

def rotr (n : Nat) (x : Word) : Word := (x >>> n) ||| (x <<< (32 - n))

def ch (x y z : Word) : Word := (x &&& y) ^^^ (~~~x &&& z)

def maj (x y z : Word) : Word := (x &&& y) ^^^ (x &&& z) ^^^ (y &&& z)

def bigSigma0 (x : Word) : Word := rotr 2 x ^^^ rotr 13 x ^^^ rotr 22 x

def bigSigma1 (x : Word) : Word := rotr 6 x ^^^ rotr 11 x ^^^ rotr 25 x

def smallSigma0 (x : Word) : Word := rotr 7 x ^^^ rotr 18 x ^^^ (x >>> 3)

def smallSigma1 (x : Word) : Word := rotr 17 x ^^^ rotr 19 x ^^^ (x >>> 10)

/-! ## Constants (4.2.2, 5.3.3) -/

def primes : List Nat :=
  [2, 3, 5, 7, 11, 13, 17, 19, 23, 29, 31, 37, 41, 43, 47, 53, 59, 61, 67, 71, 73, 79, 83, 89, 97, 101, 103, 107, 109,
    113, 127, 131,
    137, 139, 149, 151, 157, 163, 167, 173, 179, 181, 191, 193, 197, 199, 211, 223, 227, 229, 233, 239, 241, 251, 257,
    263, 269, 271, 277, 281, 283, 293, 307, 311]

/-- The greatest number below `2 ^ bits` whose power is at most `n`. -/
def root (power n : Nat) : Nat → Nat → Nat
  | 0, found => found
  | bits + 1, found => root power n bits (if (found + 2 ^ bits) ^ power ≤ n then found + 2 ^ bits else found)

/-- The first 32 bits of the fractional part of a root of `p`. -/
def fractionOfRoot (power p : Nat) : Word := BitVec.ofNat 32 (root power (p * 2 ^ (32 * power)) 40 0)

def roundConstant (t : Nat) : Word := fractionOfRoot 3 (primes.getD t 0)

/-! ## The hash computation (6.2) -/

structure Working where
  a : Word
  b : Word
  c : Word
  d : Word
  e : Word
  f : Word
  g : Word
  h : Word

def initialHash : Working :=
  ⟨fractionOfRoot 2 2, fractionOfRoot 2 3, fractionOfRoot 2 5, fractionOfRoot 2 7, fractionOfRoot 2 11, fractionOfRoot 2 13,
    fractionOfRoot 2 17, fractionOfRoot 2 19⟩

/-- The message schedule of a block. -/
def schedule (block : Nat → Word) (t : Nat) : Word :=
  if t < 16 then block t
  else smallSigma1 (schedule block (t - 2)) + schedule block (t - 7) + smallSigma0 (schedule block (t - 15)) +
    schedule block (t - 16)

def round (v : Working) (constant word : Word) : Working :=
  let t1 := v.h + bigSigma1 v.e + ch v.e v.f v.g + constant + word
  let t2 := bigSigma0 v.a + maj v.a v.b v.c
  ⟨t1 + t2, v.a, v.b, v.c, v.d + t1, v.e, v.f, v.g⟩

def Working.add (x y : Working) : Working :=
  ⟨x.a + y.a, x.b + y.b, x.c + y.c, x.d + y.d, x.e + y.e, x.f + y.f, x.g + y.g, x.h + y.h⟩

def compress (hash : Working) (block : Nat → Word) : Working :=
  hash.add ((List.range 64).foldl (fun v t => round v (roundConstant t) (schedule block t)) hash)

/-! ## Preprocessing (5.1.1, 5.2.1) -/

/-- The bits of a number, most significant first. -/
def toBits (width n : Nat) : Bits := (List.range width).map fun i => n.testBit (width - 1 - i)

/-- The number a bit string spells. -/
def value (bits : Bits) : Nat := bits.foldl (fun n bit => 2 * n + bit.toNat) 0

/-- The zeros of the padding: the least number that brings the length to 448 modulo 512. -/
def zeros (length : Nat) : Nat := (960 - (length + 1) % 512) % 512

def pad (message : Bits) : Bits :=
  message ++ true :: (List.replicate (zeros message.length) false ++ toBits 64 message.length)

/-- Word `t` of block `i`. -/
def blockWord (padded : Bits) (i t : Nat) : Word := BitVec.ofNat 32 (value ((padded.drop (512 * i + 32 * t)).take 32))

def sha256 (message : Bits) : Working :=
  let padded := pad message
  (List.range (padded.length / 512)).foldl (fun hash i => compress hash (blockWord padded i)) initialHash

def Working.words (v : Working) : List Word := [v.a, v.b, v.c, v.d, v.e, v.f, v.g, v.h]

theorem schedule_lt {block : Nat → Word} {t : Nat} (ht : t < 16) : schedule block t = block t := by
  rw [schedule, if_pos ht]

theorem schedule_ge {block : Nat → Word} {t : Nat} (ht : 16 ≤ t) : schedule block t =
    smallSigma1 (schedule block (t - 2)) + schedule block (t - 7) + smallSigma0 (schedule block (t - 15)) +
    schedule block (t - 16) := by
  rw [schedule, if_neg (by omega)]

/-! ## Bits and values -/

@[simp] theorem length_toBits (width n : Nat) : (toBits width n).length = width := by
  simp [toBits]

theorem toBits_succ (width n : Nat) : toBits (width + 1) n = n.testBit width :: toBits width n := by
  rw [toBits, List.range_succ_eq_map, List.map_cons, List.map_map, toBits]
  congr 1
  apply List.map_congr_left
  intro i _
  show n.testBit (width + 1 - 1 - (i + 1)) = n.testBit (width - 1 - i)
  congr 1
  omega

theorem toBits_add (left right n : Nat) : toBits (left + right) n = toBits left (n / 2 ^ right) ++ toBits right n := by
  induction left with
  | zero => simp [toBits]
  | succ left ih =>
    rw [Nat.add_right_comm, toBits_succ, toBits_succ, ih, List.cons_append, Nat.testBit_div_two_pow]

theorem toBits_mod {width n modulus : Nat} (h : width ≤ modulus) : toBits width (n % 2 ^ modulus) = toBits width n := by
  rw [toBits, toBits]
  apply List.map_congr_left
  intro i hi
  have hlt : i < width := List.mem_range.mp hi
  rw [Nat.testBit_mod_two_pow, decide_eq_true (by omega), Bool.true_and]

theorem value_foldl (bits : Bits) (start : Nat) :
    bits.foldl (fun n bit => 2 * n + bit.toNat) start = start * 2 ^ bits.length + value bits := by
  induction bits generalizing start with
  | nil => simp [value]
  | cons bit bits ih =>
    have hvalue : value (bit :: bits) = bits.foldl (fun n bit => 2 * n + bit.toNat) (2 * 0 + bit.toNat) := rfl
    rw [List.foldl_cons, ih, hvalue, ih, List.length_cons, pow_succ]
    ring

theorem value_append (left right : Bits) : value (left ++ right) = value left * 2 ^ right.length + value right := by
  rw [value, List.foldl_append, value_foldl]
  rfl

theorem value_cons (bit : Bool) (bits : Bits) : value (bit :: bits) = bit.toNat * 2 ^ bits.length + value bits := by
  rw [← List.singleton_append, value_append]
  simp [value]

theorem value_toBits (width n : Nat) : value (toBits width n) = n % 2 ^ width := by
  induction width with
  | zero => simp [toBits, value, Nat.mod_one]
  | succ width ih =>
    rw [toBits_succ, value_cons, ih, length_toBits, Nat.mod_pow_succ, Nat.toNat_testBit, Nat.mul_comm, Nat.add_comm]

/-! ## Messages of bytes -/

def bytesToBits (bytes : List UInt8) : Bits := bytes.flatMap fun byte => toBits 8 byte.toNat

theorem bytesToBits_append (left right : List UInt8) : bytesToBits (left ++ right) = bytesToBits left ++ bytesToBits right := by
  rw [bytesToBits, List.flatMap_append, bytesToBits, bytesToBits]

@[simp] theorem length_bytesToBits (bytes : List UInt8) : (bytesToBits bytes).length = 8 * bytes.length := by
  induction bytes with
  | nil => rfl
  | cons byte bytes ih =>
    rw [← List.singleton_append, bytesToBits_append, List.length_append, List.length_append, ih]
    simp [bytesToBits]
    ring

theorem drop_bytesToBits (bytes : List UInt8) (n : Nat) : (bytesToBits bytes).drop (8 * n) = bytesToBits (bytes.drop n) := by
  by_cases hn : n ≤ bytes.length
  · have hsplit : bytesToBits bytes = bytesToBits (bytes.take n) ++ bytesToBits (bytes.drop n) := by
      rw [← bytesToBits_append, List.take_append_drop]
    rw [hsplit]
    apply List.drop_left'
    rw [length_bytesToBits, List.length_take, Nat.min_eq_left hn]
  · have hlong : bytes.length ≤ n := by omega
    rw [List.drop_eq_nil_of_le (by rw [length_bytesToBits]; omega), List.drop_eq_nil_of_le hlong]
    rfl

/-- Four bytes spell their big-endian word. -/
theorem value_four (a b c d : UInt8) (rest : List UInt8) :
    value ((bytesToBits (a :: b :: c :: d :: rest)).take 32) = a.toNat * 2 ^ 24 + b.toNat * 2 ^ 16 + c.toNat * 2 ^ 8 +
    d.toNat := by
  have hfour : bytesToBits (a :: b :: c :: d :: rest) = bytesToBits [a, b, c, d] ++ bytesToBits rest :=
    bytesToBits_append [a, b, c, d] rest
  have hbyte : ∀ byte : UInt8, value (toBits 8 byte.toNat) = byte.toNat := fun byte => by
    rw [value_toBits]
    exact Nat.mod_eq_of_lt byte.toNat_lt
  rw [hfour, List.take_left' (by rw [length_bytesToBits]; rfl)]
  show value (toBits 8 a.toNat ++ (toBits 8 b.toNat ++ (toBits 8 c.toNat ++ (toBits 8 d.toNat ++ [])))) = _
  rw [List.append_nil, value_append, value_append, value_append, hbyte, hbyte, hbyte, hbyte]
  simp only [List.length_append, length_toBits]
  ring

end Fabrika.Lib.Sha2
