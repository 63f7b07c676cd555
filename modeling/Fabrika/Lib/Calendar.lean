/-
  Fabrika.Lib.Calendar — the proleptic Gregorian calendar: days counted from 1970-01-01, and
  the year, month (from 0) and date (from 1) of a day.

  `dayFromYear` is the formula of the ECMAScript date functions, over integers of any sign.
  Every day has one valid year, month and date (`valid_fields`, `dayOf_fields`, `yearOf_dayOf`),
  and days are in the order of these (`dayOf_lt`).
-/

import Mathlib.Data.Nat.Find
import Mathlib.Algebra.Order.Ring.Int

namespace Fabrika.Lib.Calendar

/-! ## Years and months -/

def isLeap (year : Int) : Bool := year % 4 = 0 ∧ (year % 100 ≠ 0 ∨ year % 400 = 0)

def daysInYear (year : Int) : Nat := if isLeap year then 366 else 365

/-- The days of a month, by whether the year is a leap year. -/
def daysInMonth (leap : Bool) : Nat → Nat
  | 1 => if leap then 29 else 28
  | 3 => 30
  | 5 => 30
  | 8 => 30
  | 10 => 30
  | _ => 31

/-- The first day of a year. -/
def dayFromYear (year : Int) : Int := 365 * (year - 1970) + (year - 1969) / 4 - (year - 1901) / 100 + (year - 1601) / 400

/-- The days of a year before a month. -/
def monthStart (leap : Bool) : Nat → Nat
  | 0 => 0
  | month + 1 => monthStart leap month + daysInMonth leap month

theorem dayFromYear_succ (year : Int) : dayFromYear (year + 1) = dayFromYear year + daysInYear year := by
  unfold dayFromYear daysInYear isLeap
  split
  · next h =>
    rw [decide_eq_true_eq] at h
    push_cast
    omega
  · next h =>
    rw [decide_eq_true_eq] at h
    push_cast
    omega

theorem dayFromYear_lt {y z : Int} (h : y < z) : dayFromYear y < dayFromYear z := by
  unfold dayFromYear
  omega

theorem dayFromYear_le {y z : Int} (h : y ≤ z) : dayFromYear y ≤ dayFromYear z := by
  unfold dayFromYear
  omega

theorem one_le_daysInMonth (leap : Bool) (month : Nat) : 28 ≤ daysInMonth leap month ∧ daysInMonth leap month ≤ 31 := by
  unfold daysInMonth
  split
  · split <;> omega
  all_goals omega

theorem monthStart_twelve (year : Int) : monthStart (isLeap year) 12 = daysInYear year := by
  unfold daysInYear
  cases isLeap year with
  | true => rfl
  | false => rfl

theorem monthStart_le (leap : Bool) {m n : Nat} (h : m ≤ n) : monthStart leap m ≤ monthStart leap n := by
  induction n with
  | zero => rw [Nat.le_zero.mp h]
  | succ n ih =>
    rcases Nat.le_succ_iff.mp h with h | rfl
    · exact le_trans (ih h) (Nat.le_add_right _ _)
    · exact le_refl _

/-! ## Days and their fields -/

/-- Month 0 to 11, date 1 to the month's days. -/
structure Valid (year : Int) (month date : Nat) : Prop where
  month_lt : month < 12
  one_le : 1 ≤ date
  date_le : date ≤ daysInMonth (isLeap year) month

instance (year : Int) (month date : Nat) : Decidable (Valid year month date) :=
  decidable_of_iff (month < 12 ∧ 1 ≤ date ∧ date ≤ daysInMonth (isLeap year) month)
    ⟨fun ⟨h₁, h₂, h₃⟩ => ⟨h₁, h₂, h₃⟩, fun ⟨h₁, h₂, h₃⟩ => ⟨h₁, h₂, h₃⟩⟩

def dayOf (year : Int) (month date : Nat) : Int := dayFromYear year + monthStart (isLeap year) month + date - 1

/-- The year of a day: one of three about the day's share of a 400-year cycle. -/
def yearOf (day : Int) : Int :=
  let near := 400 * day / 146097 + 1970
  if dayFromYear (near + 1) ≤ day then near + 1 else if dayFromYear near ≤ day then near else near - 1

def dayInYear (day : Int) : Nat := (day - dayFromYear (yearOf day)).toNat

def monthOf (day : Int) : Nat := Nat.findGreatest (fun month => monthStart (isLeap (yearOf day)) month ≤ dayInYear day) 11

def dateOf (day : Int) : Nat := dayInYear day - monthStart (isLeap (yearOf day)) (monthOf day) + 1

example : (yearOf 11016, monthOf 11016, dateOf 11016) = (2000, 1, 29) ∧ dayOf 1600 1 29 = -135081 := by decide

theorem yearOf_spec (day : Int) : dayFromYear (yearOf day) ≤ day ∧ day < dayFromYear (yearOf day + 1) := by
  simp only [yearOf]
  split
  · next h =>
    refine ⟨h, ?_⟩
    unfold dayFromYear
    omega
  · next h =>
    split
    · next h' => exact ⟨h', by omega⟩
    · next h' =>
      refine ⟨?_, ?_⟩
      · unfold dayFromYear
        omega
      · rw [sub_add_cancel]
        omega

variable {year : Int} {date month : Nat}

theorem yearOf_eq {day : Int} (hle : dayFromYear year ≤ day) (hlt : day < dayFromYear (year + 1)) : yearOf day = year := by
  obtain ⟨hle', hlt'⟩ := yearOf_spec day
  rcases lt_trichotomy (yearOf day) year with h | h | h
  · have := @dayFromYear_le (yearOf day + 1) year (by omega)
    omega
  · exact h
  · have := @dayFromYear_le (year + 1) (yearOf day) (by omega)
    omega

theorem dayInYear_lt (day : Int) : dayInYear day < daysInYear (yearOf day) := by
  obtain ⟨hle, hlt⟩ := yearOf_spec day
  rw [dayFromYear_succ] at hlt
  unfold dayInYear
  omega

theorem monthOf_lt (day : Int) : monthOf day < 12 := Nat.lt_succ_of_le (Nat.findGreatest_le 11)

theorem monthStart_monthOf (day : Int) : monthStart (isLeap (yearOf day)) (monthOf day) ≤ dayInYear day ∧
    dayInYear day < monthStart (isLeap (yearOf day)) (monthOf day + 1) := by
  refine ⟨?_, ?_⟩
  · exact @Nat.findGreatest_spec 0 (fun month => monthStart (isLeap (yearOf day)) month ≤
      dayInYear day) _ 11 (Nat.zero_le _) (Nat.zero_le _)
  · by_cases hlast : monthOf day = 11
    · rw [hlast, monthStart_twelve]
      exact dayInYear_lt day
    · have hmonth := monthOf_lt day
      have hnext :=
        @Nat.findGreatest_is_greatest (monthOf day + 1) (fun month => monthStart (isLeap (yearOf day)) month ≤ dayInYear day) _ 11
        (Nat.lt_succ_self _) (by omega)
      exact Nat.lt_of_not_le hnext

theorem valid_fields (day : Int) : Valid (yearOf day) (monthOf day) (dateOf day) := by
  obtain ⟨hle, hlt⟩ := monthStart_monthOf day
  rw [monthStart] at hlt
  refine ⟨monthOf_lt day, Nat.le_add_left _ _, ?_⟩
  unfold dateOf
  omega

theorem dayOf_fields (day : Int) : dayOf (yearOf day) (monthOf day) (dateOf day) = day := by
  obtain ⟨hle, -⟩ := monthStart_monthOf day
  obtain ⟨hyear, -⟩ := yearOf_spec day
  unfold dayOf dateOf
  have hday : (dayInYear day : Int) = day - dayFromYear (yearOf day) := Int.toNat_of_nonneg (by omega)
  omega

section
variable (h : Valid year month date)
include h

/-- A valid date lies in its month, and in its year. -/
theorem Valid.bounds :
    monthStart (isLeap year) month + (date - 1) < monthStart (isLeap year) (month + 1) ∧
      monthStart (isLeap year) (month + 1) ≤ daysInYear year := by
  obtain ⟨hmonth, hone, hdate⟩ := h
  rw [← monthStart_twelve]
  refine ⟨?_, monthStart_le _ (by omega)⟩
  rw [monthStart]
  omega

theorem yearOf_dayOf : yearOf (dayOf year month date) = year := by
  obtain ⟨hlt, hle⟩ := h.bounds
  have hone := h.one_le
  apply yearOf_eq
  · unfold dayOf
    omega
  · rw [dayFromYear_succ]
    unfold dayOf
    omega

theorem dayInYear_dayOf : dayInYear (dayOf year month date) = monthStart (isLeap year) month + (date - 1) := by
  have hone := h.one_le
  rw [dayInYear, yearOf_dayOf h, dayOf]
  omega

theorem monthOf_dayOf : monthOf (dayOf year month date) = month := by
  obtain ⟨hlt, -⟩ := h.bounds
  obtain ⟨hle', hlt'⟩ := monthStart_monthOf (dayOf year month date)
  rw [dayInYear_dayOf h, yearOf_dayOf h] at hle' hlt'
  rcases lt_trichotomy (monthOf (dayOf year month date)) month with hm | hm | hm
  · have := @monthStart_le (isLeap year) (monthOf (dayOf year month date) + 1) month (by omega)
    omega
  · exact hm
  · have := @monthStart_le (isLeap year) (month + 1) (monthOf (dayOf year month date)) (by omega)
    omega

theorem dateOf_dayOf : dateOf (dayOf year month date) = date := by
  have hone := h.one_le
  rw [dateOf, monthOf_dayOf h, yearOf_dayOf h, dayInYear_dayOf h]
  omega

end

/-- Days are in the order of year, month and date. -/
theorem dayOf_lt {y y' : Int} {m m' d d' : Nat} (h : Valid y m d) (h' : Valid y' m' d')
    (hlt : y < y' ∨ y = y' ∧ (m < m' ∨ m = m' ∧ d < d')) : dayOf y m d < dayOf y' m' d' := by
  obtain ⟨hend, hyear⟩ := h.bounds
  have hone := h.one_le
  have hone' := h'.one_le
  rcases hlt with hy | ⟨rfl, hm | ⟨rfl, hd⟩⟩
  · have hnext := @dayFromYear_le (y + 1) y' (by omega)
    rw [dayFromYear_succ] at hnext
    unfold dayOf
    omega
  · have hnext := @monthStart_le (isLeap y) (m + 1) m' hm
    unfold dayOf
    omega
  · unfold dayOf
    omega

end Fabrika.Lib.Calendar
