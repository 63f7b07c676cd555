/-
  Fabrika.Lib.Double — the finite numbers of JavaScript: binary64 values, the text `String(x)`
  writes for one and what `Number(text)` reads.

  A number is its exact value, so `0` and `-0` are one `Double`. `text` follows
  `Number::toString`: the shortest decimal that rounds to the number, the closest one of that
  length, laid out with or without an exponent. `read` follows `StringToNumber`.

  Proved: `text` is read back (`read_text`), so numbers of one text are equal (`text_inj`).
-/

import Fabrika.Lib.Json
import Mathlib.Data.Int.Log
import Mathlib.Data.Nat.Prime.Basic
import Mathlib.Data.Rat.Floor
import Mathlib.Tactic.FieldSimp
import Mathlib.Tactic.Linarith
import Mathlib.Tactic.Positivity
import Mathlib.Tactic.Ring

namespace Fabrika.Lib

/-- The finite values of binary64. -/
def IsDouble (q : ℚ) : Prop := ∃ m e : ℤ, |m| < 2 ^ 53 ∧ -1074 ≤ e ∧ e ≤ 971 ∧ q = m * 2 ^ e

@[ext] structure Double where
  value : ℚ
  isDouble : IsDouble value

namespace Double

open Json (isDigit decimal)

/-! ## Rounding -/

/-- The nearest integer, the even one of two. -/
def roundEven (q : ℚ) : ℤ :=
  if q - ⌊q⌋ < 1 / 2 then ⌊q⌋
  else if 1 / 2 < q - ⌊q⌋ then ⌊q⌋ + 1
  else if ⌊q⌋ % 2 = 0 then ⌊q⌋
  else ⌊q⌋ + 1

/-- The exponent of the last binary digit a number of this size keeps. -/
def quantum (q : ℚ) : ℤ := max (Int.log 2 |q| - 52) (-1074)

def round (q : ℚ) : ℚ := roundEven (q / 2 ^ quantum q) * 2 ^ quantum q

theorem roundEven_intCast (z : ℤ) : roundEven z = z := by
  simp [roundEven]

theorem two_zpow_pos (e : ℤ) : (0 : ℚ) < 2 ^ e := zpow_pos (by norm_num) e

theorem abs_mul_zpow (m e : ℤ) : |(m : ℚ) * 2 ^ e| = |m| * 2 ^ e := by
  rw [abs_mul, abs_of_pos (two_zpow_pos e), Int.cast_abs]

variable {q : ℚ} {n : ℕ} {fraction whole u : Units}

variable {x : Double} {rest : Units}

theorem quantum_le {m e : ℤ} (hm : |m| < 2 ^ 53) (he : -1074 ≤ e) (hq : q = m * 2 ^ e) (hne : q ≠ 0) : quantum q ≤ e := by
  have habs : |q| < (2 : ℕ) ^ (53 + e) := by
    rw [hq, abs_mul_zpow, zpow_add₀ (by norm_num)]
    apply mul_lt_mul_of_pos_right _ (two_zpow_pos e)
    exact_mod_cast hm
  have hlog : Int.log 2 |q| < 53 + e := (Int.lt_zpow_iff_log_lt (by decide) (abs_pos.mpr hne)).mp habs
  exact max_le (by omega) he

/-- A number that needs no rounding is kept. -/
theorem round_of_isDouble (h : IsDouble q) : round q = q := by
  obtain ⟨m, e, hm, he, _, hq⟩ := h
  by_cases hne : q = 0
  · subst hne
    simp [round, roundEven]
  · have hle := quantum_le hm he hq hne
    obtain ⟨k, hk⟩ := Int.eq_ofNat_of_zero_le (sub_nonneg.mpr hle)
    have hscaled : q / 2 ^ quantum q = ((m * 2 ^ k : ℤ) : ℚ) := by
      rw [hq, mul_div_assoc, ← zpow_sub₀ (by norm_num), ← hq, hk]
      push_cast
      rw [zpow_natCast]
    rw [round, hscaled, roundEven_intCast, ← hscaled]
    exact div_mul_cancel₀ q (two_zpow_pos _).ne'

theorem roundEven_le {n : ℤ} (h : q ≤ n) : roundEven q ≤ n := by
  have hfloor : ⌊q⌋ ≤ n := Int.floor_le_iff.mpr (by linarith)
  have hup : 1 / 2 ≤ q - ⌊q⌋ → ⌊q⌋ + 1 ≤ n := by
    intro hhalf
    have hlt : (⌊q⌋ : ℚ) < n := by linarith
    exact_mod_cast hlt
  unfold roundEven
  split
  · exact hfloor
  split
  · rename_i hgt
    exact hup hgt.le
  split
  · exact hfloor
  · rename_i hlt _ _
    exact hup (not_lt.mp hlt)

theorem le_roundEven {n : ℤ} (h : n ≤ q) : n ≤ roundEven q := by
  have hfloor : n ≤ ⌊q⌋ := Int.le_floor.mpr h
  unfold roundEven
  split
  · exact hfloor
  split
  · omega
  split
  · exact hfloor
  · omega

theorem div_quantum_lt (q : ℚ) : q / 2 ^ quantum q < 2 ^ 53 := by
  rw [div_lt_iff₀ (two_zpow_pos _)]
  have hlog := Int.lt_zpow_succ_log_self (by decide : 1 < 2) |q|
  have hle : Int.log 2 |q| + 1 ≤ 53 + quantum q := by
    have := le_max_left (Int.log 2 |q| - 52) (-1074)
    unfold quantum
    omega
  calc q ≤ |q| := le_abs_self q
    _ < ((2 : ℕ) : ℚ) ^ (Int.log 2 |q| + 1) := hlog
    _ ≤ (2 : ℚ) ^ (53 + quantum q) := by
      push_cast
      exact zpow_le_zpow_right₀ (by norm_num) hle
    _ = 2 ^ 53 * 2 ^ quantum q := by
      rw [zpow_add₀ (by norm_num)]
      norm_cast

/-- A number above the least quantum keeps 53 binary digits. -/
theorem le_div_quantum (hq : 0 < q) (h : -1074 < quantum q) : 2 ^ 52 ≤ q / 2 ^ quantum q := by
  have hlog : quantum q = Int.log 2 q - 52 := by
    unfold quantum at h ⊢
    rw [abs_of_pos hq] at h ⊢
    omega
  have hself := Int.zpow_log_le_self (by decide : 1 < 2) hq
  rw [le_div_iff₀ (two_zpow_pos _), hlog, ← zpow_natCast, ← zpow_add₀ (by norm_num)]
  push_cast at hself ⊢
  convert hself using 2
  ring

theorem two_zpow_lt {a b : ℤ} (h : (2 : ℚ) ^ a < 2 ^ b) : a < b := (zpow_lt_zpow_iff_right₀ (by norm_num)).mp h

/-- Rounding stays within binary64, short of overflow. -/
theorem isDouble_round (hq : 0 ≤ q) (h : round q < 2 ^ (1024 : ℤ)) : IsDouble (round q) := by
  have hnonneg : 0 ≤ roundEven (q / 2 ^ quantum q) := le_roundEven (by
    push_cast
    exact div_nonneg hq (two_zpow_pos _).le)
  have hle : roundEven (q / 2 ^ quantum q) ≤ 2 ^ 53 := roundEven_le (by push_cast; exact (div_quantum_lt q).le)
  have hlow : -1074 ≤ quantum q := le_max_right _ _
  rw [round] at h
  rcases hle.lt_or_eq with hlt | heq
  · refine ⟨_, _, by rwa [abs_of_nonneg hnonneg], hlow, ?_, rfl⟩
    by_contra hhigh
    have hpos : 0 < q := by
      rcases hq.lt_or_eq with hpos | rfl
      · exact hpos
      · simp [quantum] at hhigh
    have hbig : (2 ^ 52 : ℤ) ≤ roundEven (q / 2 ^ quantum q) := le_roundEven (by push_cast; exact le_div_quantum hpos (by omega))
    have hover : (2 : ℚ) ^ (52 + quantum q) < 2 ^ (1024 : ℤ) := by
      refine lt_of_le_of_lt ?_ h
      rw [zpow_add₀ (by norm_num)]
      apply mul_le_mul_of_nonneg_right _ (two_zpow_pos _).le
      exact_mod_cast hbig
    have := two_zpow_lt hover
    omega
  · -- A carry into a 54th digit leaves a power of two.
    rw [heq] at h
    have hpow : ((2 ^ 53 : ℤ) : ℚ) * 2 ^ quantum q = 2 ^ (53 + quantum q) := by
      rw [zpow_add₀ (by norm_num)]
      norm_cast
    rw [hpow] at h
    have := two_zpow_lt h
    refine ⟨2 ^ 52, quantum q + 1, by norm_num, by omega, by omega, ?_⟩
    rw [round, heq, hpow, show 53 + quantum q = 52 + (quantum q + 1) by ring, zpow_add₀ (by norm_num)]
    norm_cast

/-- The nearest number, `none` where it overflows. -/
def nearest (q : ℚ) (hq : 0 ≤ q) : Option Double :=
  if h : round q < 2 ^ (1024 : ℤ) then some ⟨round q, isDouble_round hq h⟩ else none

theorem lt_of_isDouble (h : IsDouble q) : q < 2 ^ (1024 : ℤ) := by
  obtain ⟨m, e, hm, _, he, rfl⟩ := h
  have hm' : (m : ℚ) < 2 ^ 53 := by exact_mod_cast (abs_lt.mp hm).2
  have he' : (2 : ℚ) ^ e ≤ 2 ^ (971 : ℤ) := zpow_le_zpow_right₀ (by norm_num) he
  calc (m : ℚ) * 2 ^ e < 2 ^ 53 * 2 ^ e := mul_lt_mul_of_pos_right hm' (two_zpow_pos e)
    _ ≤ 2 ^ 53 * 2 ^ (971 : ℤ) := mul_le_mul_of_nonneg_left he' (by norm_num)
    _ = 2 ^ (53 : ℤ) * 2 ^ (971 : ℤ) := rfl
    _ = 2 ^ (53 + 971 : ℤ) := (zpow_add₀ (by norm_num) _ _).symm

theorem nearest_eq (hq : 0 ≤ q) (h : round q = x.value) : nearest q hq = some x := by
  have hlt : round q < 2 ^ (1024 : ℤ) := h ▸ lt_of_isDouble x.isDouble
  rw [nearest, dif_pos hlt]
  exact congrArg some (Double.ext h)

/-! ## The shortest decimal -/

/-- The decimal `s · 10 ^ p`. -/
abbrev Decimal := ℕ × ℤ

def Decimal.value (d : Decimal) : ℚ := d.1 * 10 ^ d.2

/-- The two decimals of `k` digits around a positive number, the closer one first. -/
def candidates (x : ℚ) (k : ℕ) : List Decimal :=
  let p := Int.log 10 x + 1 - k
  let s := ⌊x / 10 ^ p⌋.toNat
  if x / 10 ^ p - s ≤ 1 / 2 then [(s, p), (s + 1, p)] else [(s + 1, p), (s, p)]

def exactDecimal (x : ℚ) : Decimal := (x.num.toNat * 5 ^ Nat.log 2 x.den, -(Nat.log 2 x.den : ℤ))

/-- The shortest decimal that rounds to a positive number; seventeen digits are enough, and
    the exact value always is. -/
def shortest (x : ℚ) : Decimal :=
  ((List.range 17).findSome? fun k => (candidates x (k + 1)).find? fun d => round d.value == x).getD (exactDecimal x)

/-- The same decimal without trailing zeros in `s`. -/
def strip : ℕ → Decimal → Decimal
  | 0, d => d
  | fuel + 1, (s, p) => if s ≠ 0 ∧ s % 10 = 0 then strip fuel (s / 10, p + 1) else (s, p)

theorem strip_value (fuel : ℕ) (d : Decimal) : (strip fuel d).value = d.value := by
  induction fuel generalizing d with
  | zero => rfl
  | succ fuel ih =>
    obtain ⟨s, p⟩ := d
    rw [strip]
    split
    · rename_i h
      rw [ih, Decimal.value, Decimal.value]
      have hs : (s : ℚ) = (s / 10 : ℕ) * 10 := by exact_mod_cast (Nat.div_mul_cancel (Nat.dvd_of_mod_eq_zero h.2)).symm
      rw [hs, zpow_add₀ (by norm_num), zpow_one]
      ring
    · rfl

theorem den_eq_pow {x : ℚ} (h : IsDouble x) : ∃ j, x.den = 2 ^ j := by
  obtain ⟨m, e, _, he, _, rfl⟩ := h
  obtain ⟨least, hleast⟩ : ∃ least : ℕ, (least : ℤ) = 1074 := ⟨1074, rfl⟩
  obtain ⟨k, hk⟩ := Int.eq_ofNat_of_zero_le (show 0 ≤ e + least by omega)
  have hdiv : (m : ℚ) * 2 ^ e = Rat.divInt (m * 2 ^ k) (2 ^ least) := by
    rw [Rat.divInt_eq_div, eq_div_iff (by positivity)]
    push_cast
    rw [mul_assoc, ← zpow_natCast, ← zpow_natCast, ← zpow_add₀ (by norm_num), hk]
  have hdvd : ((m : ℚ) * 2 ^ e).den ∣ 2 ^ least := by
    have := Rat.den_dvd (m * 2 ^ k) (2 ^ least)
    rw [← hdiv] at this
    exact_mod_cast this
  obtain ⟨j, _, hj⟩ := (Nat.dvd_prime_pow Nat.prime_two).mp hdvd
  exact ⟨j, hj⟩

theorem exactDecimal_value {x : ℚ} (h : IsDouble x) (hx : 0 < x) : (exactDecimal x).value = x := by
  obtain ⟨j, hj⟩ := den_eq_pow h
  have hnum : ((x.num.toNat : ℕ) : ℚ) = x.num := by exact_mod_cast Int.toNat_of_nonneg (Rat.num_pos.mpr hx).le
  have hden : x = x.num / 2 ^ j := by
    conv_lhs => rw [← Rat.num_div_den x, hj]
    push_cast
    rfl
  rw [Decimal.value, exactDecimal, hj, Nat.log_pow (by decide)]
  push_cast
  rw [hnum, zpow_neg, zpow_natCast, ← div_eq_mul_inv, show (10 : ℚ) ^ j = 5 ^ j * 2 ^ j by rw [← mul_pow]; norm_num]
  conv_rhs => rw [hden]
  field_simp

theorem round_shortest {x : ℚ} (h : IsDouble x) (hx : 0 < x) : round (shortest x).value = x := by
  unfold shortest
  cases hfound : (List.range 17).findSome? fun k => (candidates x (k + 1)).find? fun d => round d.value == x with
  | none =>
    rw [Option.getD_none, exactDecimal_value h hx]
    exact round_of_isDouble h
  | some d =>
    obtain ⟨k, _, hk⟩ := List.exists_of_findSome?_eq_some hfound
    have := List.find?_some hk
    rw [Option.getD_some]
    exact eq_of_beq this

/-! ## The text of a number -/

def digits (n : ℕ) : Units := (Nat.toDigits 10 n).map Char.toNat

def pointed (whole fraction : Units) : Units := if fraction = [] then whole else whole ++ 0x2e :: fraction

def exponentText (e : ℤ) : Units := 0x65 :: (if 0 ≤ e then 0x2b :: digits e.toNat else 0x2d :: digits (-e).toNat)

/-- A positive decimal in the layout its size asks for: plain, with a point, or with an
    exponent. -/
def format (d : Decimal) : Units :=
  let s := digits d.1
  let k : ℤ := s.length
  let n := d.2 + k
  if k ≤ n ∧ n ≤ 21 then s ++ List.replicate (n - k).toNat 0x30
  else if 0 < n ∧ n ≤ 21 then pointed (s.take n.toNat) (s.drop n.toNat)
  else if -6 < n ∧ n ≤ 0 then pointed [0x30] (List.replicate (-n).toNat 0x30 ++ s)
  else pointed (s.take 1) (s.drop 1) ++ exponentText (n - 1)

def unsignedText (x : ℚ) : Units :=
  let d := shortest x
  format (strip (Nat.log 10 d.1) d)

/-- `String(x)`. -/
def text (x : Double) : Units :=
  if x.value = 0 then [0x30] else if x.value < 0 then 0x2d :: unsignedText (-x.value) else unsignedText x.value

/-! ## Reading a text -/

/-- What `Number(text)` gives. -/
inductive Number
  | nan
  | infinite (negative : Bool)
  | negZero
  | finite (x : Double)

def zero : Double := ⟨0, 0, 0, by norm_num, by norm_num, by norm_num, by norm_num⟩

def neg (x : Double) : Double :=
  ⟨-x.value, by
    obtain ⟨m, e, hm, hlow, hhigh, hx⟩ := x.isDouble
    exact ⟨-m, e, by rwa [abs_neg], hlow, hhigh, by rw [hx]; push_cast; ring⟩⟩

def isWhiteSpace (u : Nat) : Bool :=
  (9 ≤ u && u ≤ 13) || u == 0x20 || u == 0xa0 || u == 0x1680 || (0x2000 ≤ u && u ≤ 0x200a) ||
    u == 0x2028 || u == 0x2029 || u == 0x202f || u == 0x205f || u == 0x3000 || u == 0xfeff

def trim (u : Units) : Units := ((u.dropWhile isWhiteSpace).reverse.dropWhile isWhiteSpace).reverse

def readDigits (u : Units) : Option ℕ := if u ≠ [] ∧ u.all isDigit then some (decimal u) else none

def readExponent : Units → Option ℤ
  | [] => some 0
  | mark :: rest =>
    if mark = 0x65 ∨ mark = 0x45 then
      match rest with
      | [] => none
      | sign :: more =>
        if sign = 0x2b then (readDigits more).map fun n => (n : ℤ)
        else if sign = 0x2d then (readDigits more).map fun n => -(n : ℤ)
        else (readDigits rest).map fun n => (n : ℤ)
    else none

def fractionOf (u : Units) : Units × Units :=
  if u.head? = some 0x2e then (u.tail.takeWhile isDigit, u.tail.dropWhile isDigit) else ([], u)

def readDecimal (u : Units) : Option Decimal :=
  let whole := u.takeWhile isDigit
  let (fraction, rest) := fractionOf (u.dropWhile isDigit)
  if whole = [] ∧ fraction = [] then none
  else (readExponent rest).map fun e => (decimal (whole ++ fraction), e - fraction.length)

theorem Decimal.value_nonneg (d : Decimal) : 0 ≤ d.value :=
  mul_nonneg (Nat.cast_nonneg _) (zpow_nonneg (by norm_num) _)

def signed (negative : Bool) (d : Decimal) : Number :=
  match nearest d.value d.value_nonneg with
  | none => .infinite negative
  | some x => if negative then if x.value = 0 then .negZero else .finite x.neg else .finite x

def readUnsigned (negative : Bool) (u : Units) : Number :=
  if u = codeUnits "Infinity" then .infinite negative
  else match readDecimal u with
    | none => .nan
    | some d => signed negative d

def hexValue (u : Nat) : Option ℕ :=
  if 0x30 ≤ u ∧ u ≤ 0x39 then some (u - 0x30)
  else if 0x61 ≤ u ∧ u ≤ 0x66 then some (u - 0x57)
  else if 0x41 ≤ u ∧ u ≤ 0x46 then some (u - 0x37)
  else none

def readRadix (radix : ℕ) (u : Units) : Number :=
  if u = [] then .nan
  else match u.mapM fun c => (hexValue c).filter (· < radix) with
    | none => .nan
    | some ds => signed false (ds.foldl (fun n c => n * radix + c) 0, 0)

/-- The radix a prefix such as `0x` announces. -/
def radixOf (u : Units) : Option ℕ :=
  match u with
  | first :: mark :: _ =>
    if first = 0x30 then
      if mark = 0x78 ∨ mark = 0x58 then some 16
      else if mark = 0x6f ∨ mark = 0x4f then some 8
      else if mark = 0x62 ∨ mark = 0x42 then some 2
      else none
    else none
  | _ => none

/-- `Number(text)`. -/
def read (u : Units) : Number :=
  let t := trim u
  match t with
  | [] => .finite zero
  | sign :: rest =>
    match radixOf t with
    | some radix => readRadix radix (t.drop 2)
    | none =>
      if sign = 0x2d then readUnsigned true rest
      else if sign = 0x2b then readUnsigned false rest
      else readUnsigned false t

/-! ## Reading the text of a number -/

theorem decimal_foldl (start : ℕ) (u : Units) :
    u.foldl (fun n d => n * 10 + (d - 0x30)) start = start * 10 ^ u.length + decimal u := by
  induction u generalizing start with
  | nil => simp [decimal]
  | cons d rest ih =>
    simp only [decimal, List.foldl_cons, List.length_cons] at ih ⊢
    rw [ih, ih (0 * 10 + (d - 0x30)), pow_succ]
    ring

theorem decimal_append (u v : Units) : decimal (u ++ v) = decimal u * 10 ^ v.length + decimal v := by
  rw [decimal, List.foldl_append, decimal_foldl, ← decimal]

theorem decimal_replicate (n : ℕ) : decimal (List.replicate n 0x30) = 0 := by
  induction n with
  | zero => rfl
  | succ n ih => simpa [decimal, List.replicate_succ] using ih

theorem decimal_digits (n : ℕ) : decimal (digits n) = n := by
  conv_rhs => rw [← Nat.ofDigitChars_ten_toDigits (n := n), Nat.ofDigitChars_eq_foldl]
  rw [decimal, digits, List.foldl_map]
  congr 1
  funext sofar c
  rw [Nat.mul_comm]
  rfl

theorem digits_ne_nil (n : ℕ) : digits n ≠ [] := by
  simp [digits]

theorem isDigit_of_mem_digits : ∀ u ∈ digits n, isDigit u = true := fun _ hu => Json.isDigit_of_mem_toDigits hu

theorem readDigits_digits (n : ℕ) : readDigits (digits n) = some n := by
  rw [readDigits, if_pos ⟨digits_ne_nil n, List.all_eq_true.mpr isDigit_of_mem_digits⟩, decimal_digits]

theorem readExponent_exponentText (e : ℤ) : readExponent (exponentText e) = some e := by
  unfold exponentText readExponent
  by_cases h : 0 ≤ e
  · simp [h, readDigits_digits]
  · simp only [h, if_false, readDigits_digits]
    simp
    omega

/-- What ends a run of digits. -/
def StopsDigits (rest : Units) : Prop := ∀ u ∈ rest.head?, isDigit u = false

theorem span_digits {ds : Units} (hds : ∀ u ∈ ds, isDigit u = true) (hrest : StopsDigits rest) :
    (ds ++ rest).takeWhile isDigit = ds ∧ (ds ++ rest).dropWhile isDigit = rest := by
  rw [List.takeWhile_append_of_pos hds, List.dropWhile_append_of_pos hds]
  cases rest with
  | nil => simp
  | cons u rest =>
    have hu : isDigit u = false := hrest u rfl
    simp [hu]

theorem readDecimal_pointed {e : ℤ} (hwhole : ∀ u ∈ whole, isDigit u = true) (hne : whole ≠ [])
    (hfraction : ∀ u ∈ fraction, isDigit u = true) (hrest : StopsDigits rest) (hpoint : rest.head? ≠ some 0x2e)
    (he : readExponent rest = some e) :
    readDecimal (pointed whole fraction ++ rest) = some (decimal (whole ++ fraction), e - fraction.length) := by
  by_cases h : fraction = []
  · subst h
    obtain ⟨htake, hdrop⟩ := span_digits hwhole hrest
    simp [readDecimal, pointed, htake, hdrop, fractionOf, hpoint, hne, he]
  · have hsplit : pointed whole fraction ++ rest = whole ++ (0x2e :: (fraction ++ rest)) := by
      simp [pointed, h]
    have hstops : StopsDigits (0x2e :: (fraction ++ rest)) := by
      intro u hu
      cases hu
      rfl
    obtain ⟨htake, hdrop⟩ := span_digits hwhole hstops
    obtain ⟨htake', hdrop'⟩ := span_digits hfraction hrest
    simp only [readDecimal, hsplit, htake, hdrop, fractionOf, List.head?_cons, if_true, List.tail_cons, htake', hdrop', hne,
      false_and, if_false, he, Option.map_some]

/-- A pointed text with nothing after it. -/
theorem readDecimal_pointed_nil (hwhole : ∀ u ∈ whole, isDigit u = true) (hne : whole ≠ [])
    (hfraction : ∀ u ∈ fraction, isDigit u = true) :
    readDecimal (pointed whole fraction) = some (decimal (whole ++ fraction), -(fraction.length : ℤ)) := by
  have hstops : StopsDigits [] := by
    intro u hu
    cases hu
  have h := readDecimal_pointed hwhole hne hfraction hstops (by simp) rfl
  simpa using h

theorem isDigit_of_mem_zeros : ∀ u ∈ List.replicate n 0x30, isDigit u = true := by
  intro u hu
  rw [List.eq_of_mem_replicate hu]
  rfl

theorem take_ne_nil (hu : u ≠ []) (hn : 0 < n) : u.take n ≠ [] := by
  cases n with
  | zero => omega
  | succ n =>
    cases u with
    | nil => exact absurd rfl hu
    | cons => simp

theorem isDigit_take (s n : ℕ) : ∀ u ∈ (digits s).take n, isDigit u = true :=
  fun u hu => isDigit_of_mem_digits u (List.mem_of_mem_take hu)

theorem isDigit_drop (s n : ℕ) : ∀ u ∈ (digits s).drop n, isDigit u = true :=
  fun u hu => isDigit_of_mem_digits u (List.mem_of_mem_drop hu)

theorem readDecimal_format (d : Decimal) : ∃ e, readDecimal (format d) = some e ∧ e.value = d.value := by
  obtain ⟨s, p⟩ := d
  have hlength : 0 < (digits s).length := List.length_pos_iff.mpr (digits_ne_nil s)
  rw [format]
  dsimp only
  split
  · -- The zeros after the digits move into the whole part.
    rename_i h
    have hzeros : ∀ u ∈ digits s ++ List.replicate (p + (digits s).length - (digits s).length).toNat 0x30,
        isDigit u = true := by
      intro u hu
      rcases List.mem_append.mp hu with hu | hu
      · exact isDigit_of_mem_digits u hu
      · exact isDigit_of_mem_zeros u hu
    have hread := readDecimal_pointed_nil hzeros (by simp [digits_ne_nil]) (List.forall_mem_nil _)
    refine ⟨_, hread, ?_⟩
    obtain ⟨k, rfl⟩ := Int.eq_ofNat_of_zero_le (show 0 ≤ p by omega)
    simp [Decimal.value, decimal_append, decimal_digits, decimal_replicate]
  split
  · rename_i h
    refine ⟨_, readDecimal_pointed_nil (isDigit_take s _) (take_ne_nil (digits_ne_nil s) (by omega)) (isDigit_drop s _), ?_⟩
    rw [List.take_append_drop, decimal_digits, List.length_drop]
    congr 2
    omega
  split
  · rename_i h
    have hzeros : ∀ u ∈ List.replicate (-(p + (digits s).length)).toNat 0x30 ++ digits s, isDigit u = true := by
      intro u hu
      rcases List.mem_append.mp hu with hu | hu
      · exact isDigit_of_mem_zeros u hu
      · exact isDigit_of_mem_digits u hu
    refine ⟨_, readDecimal_pointed_nil (by decide) (by simp) hzeros, ?_⟩
    rw [decimal_append, decimal_append, decimal_digits, decimal_replicate, List.length_append, List.length_replicate]
    congr 2
    · simp [decimal]
    · omega
  · have hexponent : StopsDigits (exponentText (p + (digits s).length - 1)) := by
      intro u hu
      cases hu
      rfl
    refine ⟨_, readDecimal_pointed (isDigit_take s 1) (take_ne_nil (digits_ne_nil s) (by omega)) (isDigit_drop s 1) hexponent
      (by simp [exponentText]) (readExponent_exponentText _), ?_⟩
    rw [List.take_append_drop, decimal_digits, List.length_drop]
    congr 2
    omega

/-! ## Units of a text -/

theorem isNumeralUnit_of_isDigit {u : Nat} (h : isDigit u = true) : isNumeralUnit u = true := by
  simp only [isDigit] at h
  simp [isNumeralUnit, h]

theorem isNumeralUnit_pointed (hwhole : ∀ u ∈ whole, isDigit u = true) (hfraction : ∀ u ∈ fraction, isDigit u = true) :
    ∀ u ∈ pointed whole fraction, isNumeralUnit u = true := by
  intro u hu
  unfold pointed at hu
  split at hu
  · exact isNumeralUnit_of_isDigit (hwhole u hu)
  · rcases List.mem_append.mp hu with hu | hu
    · exact isNumeralUnit_of_isDigit (hwhole u hu)
    rcases List.mem_cons.mp hu with rfl | hu
    · rfl
    · exact isNumeralUnit_of_isDigit (hfraction u hu)

theorem isNumeralUnit_exponentText (e : ℤ) : ∀ u ∈ exponentText e, isNumeralUnit u = true := by
  intro u hu
  unfold exponentText at hu
  rcases List.mem_cons.mp hu with rfl | hu
  · rfl
  split at hu
  all_goals
    rcases List.mem_cons.mp hu with rfl | hu
    · rfl
    · exact isNumeralUnit_of_isDigit (isDigit_of_mem_digits u hu)

theorem isNumeralUnit_format (d : Decimal) : ∀ u ∈ format d, isNumeralUnit u = true := by
  obtain ⟨s, p⟩ := d
  intro u hu
  rw [format] at hu
  dsimp only at hu
  split at hu
  · rcases List.mem_append.mp hu with hu | hu
    · exact isNumeralUnit_of_isDigit (isDigit_of_mem_digits u hu)
    · exact isNumeralUnit_of_isDigit (isDigit_of_mem_zeros u hu)
  split at hu
  · exact isNumeralUnit_pointed (isDigit_take s _) (isDigit_drop s _) u hu
  split at hu
  · refine isNumeralUnit_pointed (by decide) ?_ u hu
    intro v hv
    rcases List.mem_append.mp hv with hv | hv
    · exact isDigit_of_mem_zeros v hv
    · exact isDigit_of_mem_digits v hv
  · rcases List.mem_append.mp hu with hu | hu
    · exact isNumeralUnit_pointed (isDigit_take s 1) (isDigit_drop s 1) u hu
    · exact isNumeralUnit_exponentText _ u hu

theorem isNumeralUnit_text (x : Double) : ∀ u ∈ x.text, isNumeralUnit u = true := by
  intro u hu
  unfold text at hu
  split at hu
  · rw [List.mem_singleton.mp hu]
    rfl
  split at hu
  · rcases List.mem_cons.mp hu with rfl | hu
    · rfl
    · exact isNumeralUnit_format _ u hu
  · exact isNumeralUnit_format _ u hu

theorem not_isWhiteSpace_of_numeral {u : Nat} (h : isNumeralUnit u = true) : isWhiteSpace u = false := by
  simp only [isNumeralUnit, Bool.or_eq_true, Bool.and_eq_true, decide_eq_true_eq, beq_iff_eq] at h
  simp only [isWhiteSpace, Bool.or_eq_false_iff, Bool.and_eq_false_iff, decide_eq_false_iff_not, beq_eq_false_iff_ne]
  omega

theorem dropWhile_whiteSpace (h : ∀ c ∈ u, isNumeralUnit c = true) : u.dropWhile isWhiteSpace = u := by
  cases u with
  | nil => rfl
  | cons c rest => simp [not_isWhiteSpace_of_numeral (h c List.mem_cons_self)]

theorem trim_numeral (h : ∀ c ∈ u, isNumeralUnit c = true) : trim u = u := by
  have hreverse : ∀ c ∈ u.reverse, isNumeralUnit c = true := fun c hc => h c (List.mem_reverse.mp hc)
  rw [trim, dropWhile_whiteSpace h, dropWhile_whiteSpace hreverse, List.reverse_reverse]

theorem radixOf_numeral (h : ∀ c ∈ u, isNumeralUnit c = true) : radixOf u = none := by
  match u with
  | [] => rfl
  | [_] => rfl
  | first :: mark :: rest =>
    have hmark := h mark (by simp)
    simp only [isNumeralUnit, Bool.or_eq_true, Bool.and_eq_true, decide_eq_true_eq, beq_iff_eq] at hmark
    have hx : ¬(mark = 0x78 ∨ mark = 0x58) := by omega
    have ho : ¬(mark = 0x6f ∨ mark = 0x4f) := by omega
    have hb : ¬(mark = 0x62 ∨ mark = 0x42) := by omega
    simp [radixOf, hx, ho, hb]

/-! ## `Number(String(x))` -/

/-- A text that starts with a digit. -/
def StartsWithDigit (u : Units) : Prop := ∃ c rest, u = c :: rest ∧ isDigit c = true

theorem startsWithDigit_append (hwhole : ∀ u ∈ whole, isDigit u = true) (hne : whole ≠ []) (rest : Units) :
    StartsWithDigit (whole ++ rest) := by
  cases whole with
  | nil => exact absurd rfl hne
  | cons c more => exact ⟨c, more ++ rest, rfl, hwhole c List.mem_cons_self⟩

theorem startsWithDigit_pointed (hwhole : ∀ u ∈ whole, isDigit u = true) (hne : whole ≠ []) (rest : Units) :
    StartsWithDigit (pointed whole fraction ++ rest) := by
  unfold pointed
  split
  · exact startsWithDigit_append hwhole hne rest
  · rw [List.append_assoc]
    exact startsWithDigit_append hwhole hne _

theorem startsWithDigit_format (d : Decimal) : StartsWithDigit (format d) := by
  rw [format]
  split
  · exact startsWithDigit_append isDigit_of_mem_digits (digits_ne_nil _) _
  split
  · rename_i h
    rw [← List.append_nil (pointed _ _)]
    exact startsWithDigit_pointed (isDigit_take d.1 _) (take_ne_nil (digits_ne_nil _) (by omega)) _
  split
  · rw [← List.append_nil (pointed _ _)]
    exact startsWithDigit_pointed (by decide) (by simp) _
  · exact startsWithDigit_pointed (isDigit_take d.1 1) (take_ne_nil (digits_ne_nil _) (by omega)) _

theorem readUnsigned_unsignedText (negative : Bool) (hx : 0 < x.value) :
    readUnsigned negative (unsignedText x.value) = if negative then .finite x.neg else .finite x := by
  have hunits := isNumeralUnit_format (strip (Nat.log 10 (shortest x.value).1) (shortest x.value))
  have hne : unsignedText x.value ≠ codeUnits "Infinity" := by
    intro heq
    have := hunits 0x49 (by rw [show format _ = _ from heq]; decide)
    exact absurd this (by decide)
  obtain ⟨e, hread, hvalue⟩ := readDecimal_format (strip (Nat.log 10 (shortest x.value).1) (shortest x.value))
  have hround : round e.value = x.value := by
    rw [hvalue, strip_value, round_shortest x.isDouble hx]
  have hread' : readDecimal (unsignedText x.value) = some e := hread
  rw [readUnsigned, if_neg hne, hread']
  simp only [signed, nearest_eq e.value_nonneg hround, hx.ne', if_false]

theorem read_numeral {c : Nat} (h : ∀ u ∈ c :: rest, isNumeralUnit u = true) :
    read (c :: rest) =
      if c = 0x2d then readUnsigned true rest
      else if c = 0x2b then readUnsigned false rest
      else readUnsigned false (c :: rest) := by
  simp only [read, trim_numeral h, radixOf_numeral h]

theorem read_digits (hdigit : StartsWithDigit u) (h : ∀ c ∈ u, isNumeralUnit c = true) : read u = readUnsigned false u := by
  obtain ⟨c, rest, rfl, hc⟩ := hdigit
  simp only [isDigit, Bool.and_eq_true, decide_eq_true_eq] at hc
  rw [read_numeral h, if_neg (by omega), if_neg (by omega)]

theorem readUnsigned_zero : readUnsigned false [0x30] = .finite zero := by
  have hround : round (Decimal.value (0, 0)) = zero.value := by
    simp [Decimal.value, round, roundEven, zero]
  have hread : readDecimal [0x30] = some (0, 0) := by decide
  rw [readUnsigned, if_neg (by decide), hread]
  simp only [signed, nearest_eq (Decimal.value_nonneg _) hround, Bool.false_eq_true, if_false]

theorem neg_neg (x : Double) : x.neg.neg = x := Double.ext (by simp [neg])

theorem read_text (x : Double) : read x.text = .finite x := by
  have hunits := isNumeralUnit_text x
  by_cases hzero : x.value = 0
  · have htext : x.text = [0x30] := by
      rw [text, if_pos hzero]
    rw [htext] at hunits ⊢
    rw [read_digits ⟨0x30, [], rfl, rfl⟩ hunits, readUnsigned_zero]
    exact congrArg Number.finite (Double.ext hzero.symm)
  by_cases hneg : x.value < 0
  · have htext : x.text = 0x2d :: unsignedText x.neg.value := by
      rw [text, if_neg hzero, if_pos hneg]
      rfl
    have hpos : 0 < x.neg.value := neg_pos.mpr hneg
    rw [htext] at hunits ⊢
    rw [read_numeral hunits, if_pos rfl, readUnsigned_unsignedText true hpos, if_pos rfl, neg_neg]
  · have htext : x.text = unsignedText x.value := by
      rw [text, if_neg hzero, if_neg hneg]
    have hpos : 0 < x.value := lt_of_le_of_ne (not_lt.mp hneg) (Ne.symm hzero)
    have hdigit : StartsWithDigit (unsignedText x.value) := startsWithDigit_format _
    rw [htext] at hunits ⊢
    rw [read_digits hdigit hunits, readUnsigned_unsignedText false hpos]
    simp

theorem text_ne_nil (x : Double) : x.text ≠ [] := by
  obtain ⟨c, rest, hformat, _⟩ := startsWithDigit_format (strip (Nat.log 10 (shortest x.value).1) (shortest x.value))
  unfold text unsignedText
  split
  · simp
  split
  · simp
  · rw [hformat]
    simp

theorem text_inj {y : Double} (h : x.text = y.text) : x = y := by
  have hx := read_text x
  rw [h, read_text y] at hx
  exact (Number.finite.inj hx).symm

instance : Numeral Double where
  text := text
  text_ne_nil := text_ne_nil
  isNumeralUnit_of_mem := isNumeralUnit_text
  text_inj _ _ := text_inj

end Double

end Fabrika.Lib
