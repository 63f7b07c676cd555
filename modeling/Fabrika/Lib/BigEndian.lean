/-
  Fabrika.Lib.BigEndian — a number as digits of a base, the highest first.

  Digits of one width spell their number back (`value_digits`) and stand in its order
  (`digits_lt`).
-/

import Mathlib.Data.List.Lex
import Mathlib.Tactic.Ring
import Fabrika.Lib.FixedText

namespace Fabrika.Lib.BigEndian

/-- The last `width` digits of a number. -/
def digits (base : Nat) : Nat → Nat → List Nat
  | 0, _ => []
  | width + 1, n => digits base width (n / base) ++ [n % base]

def value (base : Nat) (ds : List Nat) : Nat := ds.foldl (fun n d => base * n + d) 0

variable {base : Nat}

@[simp] theorem length_digits (width n : Nat) : (digits base width n).length = width := by
  induction width generalizing n with
  | zero => rfl
  | succ width ih => simp [digits, ih]

theorem mem_digits_lt (hbase : 0 < base) {width n : Nat} : ∀ d ∈ digits base width n, d < base := by
  induction width generalizing n with
  | zero => simp [digits]
  | succ width ih =>
    intro d hd
    rw [digits, List.mem_append, List.mem_singleton] at hd
    rcases hd with hd | rfl
    · exact ih d hd
    · exact Nat.mod_lt n hbase

theorem value_append_singleton (ds : List Nat) (d : Nat) : value base (ds ++ [d]) = base * value base ds + d := by
  rw [value, List.foldl_append]
  rfl

theorem value_digits (width n : Nat) : value base (digits base width n) = n % base ^ width := by
  induction width generalizing n with
  | zero => simp [digits, value, Nat.mod_one]
  | succ width ih =>
    rw [digits, value_append_singleton, ih, pow_succ, Nat.mul_comm (base ^ width) base, Nat.mod_mul, Nat.add_comm]

theorem digits_lt {width m n : Nat} (h : m < n) (hn : n < base ^ width) : digits base width m < digits base width n := by
  have hbase : 0 < base := by
    rcases Nat.eq_zero_or_pos base with rfl | hpos
    · cases width with
      | zero =>
        rw [pow_zero] at hn
        omega
      | succ width =>
        rw [pow_succ, Nat.mul_zero] at hn
        omega
    · exact hpos
  induction width generalizing m n with
  | zero =>
    rw [pow_zero] at hn
    omega
  | succ width ih =>
    rw [digits, digits]
    rw [pow_succ] at hn
    have hhigh : n / base < base ^ width := (Nat.div_lt_iff_lt_mul hbase).mpr hn
    by_cases hlt : m / base < n / base
    · apply FixedText.append_lt_append (ih hlt hhigh)
      rw [length_digits, length_digits]
    · have hle : m / base ≤ n / base := Nat.div_le_div_right (Nat.le_of_lt h)
      have hequal : m / base = n / base := by omega
      have hm := Nat.div_add_mod m base
      have hn' := Nat.div_add_mod n base
      rw [hequal] at hm
      rw [hequal]
      apply List.append_left_lt
      rw [List.cons_lt_cons_iff]
      exact .inl (by omega)

end Fabrika.Lib.BigEndian
