/-
  Fabrika.Lib.Int32 — JavaScript numbers used as 32-bit words.

  A number here is an integer; arithmetic rounds to the nearest binary64 value, as
  `Fabrika.Lib.Double` has it. The bit operators read their operands modulo 2^32 and answer a
  signed word, `>>>` an unsigned one, and a typed array stores a number modulo 2^32.

  `Spells n x w` says that a number spells a word modulo 2^32 and is within `n` times 2^32 of
  zero: what the operators and the sums of few words keep, whatever the signs of their operands,
  because such sums are exact.
-/

import Fabrika.Lib.Double

namespace Fabrika.Lib.Int32

/-! ## Arithmetic -/

/-- The number a result that is an integer rounds to. -/
def number (z : ℤ) : ℤ := ⌊Double.round z⌋

def add (x y : ℤ) : ℤ := number (x + y)

def mul (x y : ℤ) : ℤ := number (x * y)

/-- `Math.ceil(x / y)`. -/
def ceilDiv (x y : ℤ) : ℤ := ⌈Double.round ((x : ℚ) / y)⌉

/-- `Math.floor(x / y)`. -/
def floorDiv (x y : ℤ) : ℤ := ⌊Double.round ((x : ℚ) / y)⌋

variable {z : ℤ} {k : ℕ}

theorem number_eq (h : |z| < 2 ^ 53) : number z = z := by
  have hdouble : IsDouble (z : ℚ) := ⟨z, 0, h, by norm_num, by norm_num, by simp⟩
  rw [number, Double.round_of_isDouble hdouble, Int.floor_intCast]

/-- Dividing by a power of two is exact. -/
theorem round_div_two_pow (h : |z| < 2 ^ 53) (hk : k ≤ 1074) : Double.round ((z : ℚ) / (2 ^ k : ℤ)) = (z : ℚ) / (2 ^ k : ℤ) := by
  apply Double.round_of_isDouble
  refine ⟨z, -k, h, by omega, by omega, ?_⟩
  rw [zpow_neg, zpow_natCast, div_eq_mul_inv]
  push_cast
  rfl

theorem floorDiv_two_pow (h : |z| < 2 ^ 53) (hk : k ≤ 1074) : floorDiv z (2 ^ k) = z / 2 ^ k := by
  have hcast : ((2 : ℤ) ^ k : ℤ) = ((2 ^ k : ℕ) : ℤ) := by push_cast; rfl
  rw [floorDiv, round_div_two_pow h hk, hcast, Int.cast_natCast, Rat.floor_intCast_div_natCast]

theorem ceilDiv_two_pow (h : |z| < 2 ^ 53) (hk : k ≤ 1074) : ceilDiv z (2 ^ k) = -(-z / 2 ^ k) := by
  have hcast : ((2 : ℤ) ^ k : ℤ) = ((2 ^ k : ℕ) : ℤ) := by push_cast; rfl
  rw [ceilDiv, round_div_two_pow h hk, hcast, Int.cast_natCast, Rat.ceil_intCast_div_natCast]

/-! ## Bit operators -/

def word (x : ℤ) : BitVec 32 := BitVec.ofInt 32 x

def and (x y : ℤ) : ℤ := (word x &&& word y).toInt

def or (x y : ℤ) : ℤ := (word x ||| word y).toInt

def xor (x y : ℤ) : ℤ := (word x ^^^ word y).toInt

def not (x : ℤ) : ℤ := (~~~word x).toInt

/-- `x << n`. -/
def shl (x : ℤ) (n : ℕ) : ℤ := (word x <<< (n % 32)).toInt

/-- `x >>> n`. -/
def ushr (x : ℤ) (n : ℕ) : ℤ := (word x >>> (n % 32)).toNat

theorem toNat_word (x : ℤ) : ((word x).toNat : ℤ) = x % 2 ^ 32 := by
  rw [word, BitVec.toNat_ofInt]
  have hnonneg := Int.emod_nonneg x (by norm_num : (2 ^ 32 : ℤ) ≠ 0)
  push_cast
  omega

/-- A mask of low bits is a remainder. -/
theorem and_mask (hk : k < 32) (x : ℤ) : Int32.and x (2 ^ k - 1) = x % 2 ^ k := by
  have hpow : 2 ^ k ≤ 2 ^ 31 := Nat.pow_le_pow_right (by decide) (by omega)
  have hpos : 0 < 2 ^ k := Nat.two_pow_pos k
  have hmask : (word (2 ^ k - 1)).toNat = 2 ^ k - 1 := by
    have hcast : (2 ^ k - 1 : ℤ) = ((2 ^ k - 1 : ℕ) : ℤ) := by
      rw [Nat.cast_sub hpos]
      push_cast
      rfl
    have hword : ((word (2 ^ k - 1)).toNat : ℤ) = ((2 ^ k - 1 : ℕ) : ℤ) := by
      rw [toNat_word, hcast]
      exact Int.emod_eq_of_lt (Int.natCast_nonneg _) (by omega)
    exact Int.natCast_inj.mp hword
  have hnat : (word x &&& word (2 ^ k - 1)).toNat = (word x).toNat % 2 ^ k := by
    rw [BitVec.toNat_and, hmask, Nat.and_two_pow_sub_one_eq_mod]
  have hlt : (word x).toNat % 2 ^ k < 2 ^ k := Nat.mod_lt _ hpos
  rw [Int32.and, BitVec.toInt_eq_toNat_of_lt (by rw [hnat]; omega), hnat]
  push_cast
  rw [toNat_word]
  exact Int.emod_emod_of_dvd x (pow_dvd_pow 2 (by omega))

/-- `>>>` of a number that is a word divides it. -/
theorem ushr_eq {x : ℤ} (hnonneg : 0 ≤ x) (hlt : x < 2 ^ 32) (hk : k < 32) : Int32.ushr x k = x / 2 ^ k := by
  rw [Int32.ushr, Nat.mod_eq_of_lt hk, BitVec.toNat_ushiftRight, Nat.shiftRight_eq_div_pow]
  push_cast
  rw [toNat_word, Int.emod_eq_of_lt hnonneg hlt]

/-! ## Words and the numbers that spell them -/

structure Spells (n : ℕ) (x : ℤ) (w : BitVec 32) : Prop where
  word : Int32.word x = w
  bound : |x| ≤ n * 2 ^ 32

namespace Spells

theorem of_toInt (w : BitVec 32) : Spells 1 w.toInt w := by
  refine ⟨BitVec.ofInt_toInt, ?_⟩
  have hlt := w.toInt_lt
  have hle := w.le_toInt
  rw [abs_le]
  constructor
  · norm_num at hle ⊢
    omega
  · norm_num at hlt ⊢
    omega

theorem of_toNat (w : BitVec 32) : Spells 1 (w.toNat : ℤ) w := by
  refine ⟨?_, ?_⟩
  · rw [Int32.word, BitVec.ofInt_natCast, BitVec.ofNat_toNat, BitVec.setWidth_eq]
  · have hlt := w.isLt
    rw [abs_of_nonneg (by positivity)]
    norm_num at hlt ⊢
    omega

variable {m n : ℕ} {x y : ℤ} {u v : BitVec 32}

section
variable (hx : Spells m x u)
include hx

theorem and (hy : Spells n y v) : Spells 1 (Int32.and x y) (u &&& v) := by
  rw [Int32.and, hx.word, hy.word]
  exact of_toInt _

theorem or (hy : Spells n y v) : Spells 1 (Int32.or x y) (u ||| v) := by
  rw [Int32.or, hx.word, hy.word]
  exact of_toInt _

theorem xor (hy : Spells n y v) : Spells 1 (Int32.xor x y) (u ^^^ v) := by
  rw [Int32.xor, hx.word, hy.word]
  exact of_toInt _

theorem not : Spells 1 (Int32.not x) (~~~u) := by
  rw [Int32.not, hx.word]
  exact of_toInt _

theorem shl (hk : k < 32) : Spells 1 (Int32.shl x k) (u <<< k) := by
  rw [Int32.shl, hx.word, Nat.mod_eq_of_lt hk]
  exact of_toInt _

theorem ushr (hk : k < 32) : Spells 1 (Int32.ushr x k) (u >>> k) := by
  rw [Int32.ushr, hx.word, Nat.mod_eq_of_lt hk]
  exact of_toNat _

/-- `x >>> 0`. -/
theorem ushr_zero : Spells 1 (Int32.ushr x 0) u := by
  have hshift := hx.ushr (k := 0) (by decide)
  rwa [BitVec.ushiftRight_zero] at hshift

/-- A sum of few words is exact. -/
theorem add (hy : Spells n y v) (hfew : m + n ≤ 2 ^ 20) : Spells (m + n) (Int32.add x y) (u + v) := by
  have hbound : |x + y| ≤ ((m + n : ℕ) : ℤ) * 2 ^ 32 := by
    have hadd := abs_add_le x y
    have hxb := hx.bound
    have hyb := hy.bound
    push_cast
    linarith
  have hexact : |x + y| < 2 ^ 53 := by
    have hfew' : ((m + n : ℕ) : ℤ) ≤ 2 ^ 20 := by exact_mod_cast hfew
    have hscale : ((m + n : ℕ) : ℤ) * 2 ^ 32 ≤ 2 ^ 20 * 2 ^ 32 := by
      apply mul_le_mul_of_nonneg_right hfew' (by norm_num)
    norm_num at hscale hbound ⊢
    linarith
  refine ⟨?_, ?_⟩
  · rw [Int32.add, number_eq hexact, Int32.word, BitVec.ofInt_add, ← hx.word, ← hy.word]
    rfl
  · rw [Int32.add, number_eq hexact]
    exact hbound

end

end Spells

end Fabrika.Lib.Int32
