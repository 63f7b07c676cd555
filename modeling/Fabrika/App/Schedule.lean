/-
  Fabrika.App.Schedule — jobs/schedule.ts: the five-field cron expressions of `c.cron`, read in
  UTC, the test of one minute (`isDueAt`) and the search for the latest due minutes
  (`previousDue`).

  An instant is its milliseconds since 1970, of any sign. The calendar parts of a date are those
  of `Fabrika.Lib.Calendar`; `Date.UTC` reads a year below one hundred as one of the twentieth
  century.
-/

import Mathlib.Data.Finset.Sort
import Fabrika.Lib.Calendar
import Fabrika.Lib.FixedText
import Fabrika.Lib.Text

namespace Fabrika.App.Schedule

open Fabrika.Lib

structure Field where
  min : Nat
  max : Nat
  deriving DecidableEq

def MINUTE : Field := ⟨0, 59⟩

def HOUR : Field := ⟨0, 23⟩

def DAY_OF_MONTH : Field := ⟨1, 31⟩

def MONTH : Field := ⟨1, 12⟩

/-- 7 is Sunday too, and folded into 0 by `parseCron`. -/
def DAY_OF_WEEK : Field := ⟨0, 7⟩

def MINUTE_MS : Int := 60000

def SEARCH_DAYS : Nat := 366 * 5

structure CronSchedule where
  minutes : Finset Nat
  hours : Finset Nat
  daysOfMonth : Finset Nat
  months : Finset Nat
  daysOfWeek : Finset Nat
  /-- Both day fields name days: a day is due when either matches. -/
  eitherDay : Bool
  deriving DecidableEq

/-! ## Reading an expression -/

def number (text : List Char) (field : Field) : Option Nat :=
  if text ≠ [] ∧ text.all FixedText.isDigit = true then
    let value := FixedText.decimal text
    if field.min ≤ value ∧ value ≤ field.max then some value else none
  else none

/-- `item.split('/')`: the range, and the step where there is one. -/
def splitStep (item : List Char) : Option (List Char × Option (List Char)) :=
  match Text.splitChars '/' item with
  | [range] => some (range, none)
  | [range, step] => some (range, some step)
  | _ => none

/-- The first and the last value of a range. -/
def parseRange (range : List Char) (stepped : Bool) (field : Field) : Option (Nat × Nat) :=
  if range = ['*'] then some (field.min, field.max)
  else match Text.splitChars '-' range with
    | [low] => do
      let from_ ← number low field
      return (from_, if stepped then field.max else from_)
    | [low, high] => do
      let from_ ← number low field
      let to_ ← number high field
      return (from_, to_)
    | _ => none

def parseStep (step : Option (List Char)) (field : Field) : Option Nat :=
  match step with
  | none => some 1
  | some step => number step ⟨1, field.max + 1⟩

/-- The values one item of a field adds. -/
def parseItem (item : List Char) (field : Field) : Option (List Nat) := do
  let (range, step) ← splitStep item
  let every ← parseStep step field
  let (from_, to_) ← parseRange range step.isSome field
  if from_ > to_ then none
  -- from, from + every, … while at most to
  else some (List.range' from_ ((to_ - from_) / every + 1) every)

/-- `*`, `n`, `a-b`, each optionally `/step`, separated by commas; none for anything else. -/
def parseField (text : List Char) (field : Field) : Option (Finset Nat) :=
  (Text.splitChars ',' text).foldlM (fun values item => (parseItem item field).map fun added => values ∪ added.toFinset) ∅

def parseCron (expression : String) : Option CronSchedule :=
  match Text.splitChars ' ' expression.toList with
  | [minute, hour, dayOfMonth, month, dayOfWeek] => do
    let minutes ← parseField minute MINUTE
    let hours ← parseField hour HOUR
    let daysOfMonth ← parseField dayOfMonth DAY_OF_MONTH
    let months ← parseField month MONTH
    let weekdays ← parseField dayOfWeek DAY_OF_WEEK
    return ⟨minutes, hours, daysOfMonth, months, weekdays.image (· % 7), dayOfMonth.head? ≠ some '*' &&
      dayOfWeek.head? ≠ some '*'⟩
  | _ => none

/-! ## Dates -/

def DAY_MS : Int := 24 * 60 * MINUTE_MS

def utcDay (at_ : Int) : Int := at_ / DAY_MS

def getUTCFullYear (at_ : Int) : Int := Calendar.yearOf (utcDay at_)

def getUTCMonth (at_ : Int) : Nat := Calendar.monthOf (utcDay at_)

def getUTCDate (at_ : Int) : Nat := Calendar.dateOf (utcDay at_)

/-- The first of January 1970 was a Thursday. -/
def getUTCDay (at_ : Int) : Nat := ((utcDay at_ + 4) % 7).toNat

def getUTCHours (at_ : Int) : Nat := (at_ / (60 * MINUTE_MS) % 24).toNat

def getUTCMinutes (at_ : Int) : Nat := (at_ / MINUTE_MS % 60).toNat

/-- `Date.UTC`. -/
def dateUTC (year : Int) (month date : Nat) : Int :=
  Calendar.dayOf (if 0 ≤ year ∧ year ≤ 99 then 1900 + year else year) month date * DAY_MS

/-! ## Due minutes -/

def dayMatches (schedule : CronSchedule) (day : Int) : Bool :=
  if getUTCMonth day + 1 ∉ schedule.months then false
  else
    let byMonth := decide (getUTCDate day ∈ schedule.daysOfMonth)
    let byWeek := decide (getUTCDay day ∈ schedule.daysOfWeek)
    if schedule.eitherDay then byMonth || byWeek else byMonth && byWeek

def isDueAt (schedule : CronSchedule) (at_ : Int) : Bool :=
  decide (getUTCMinutes at_ ∈ schedule.minutes) && decide (getUTCHours at_ ∈ schedule.hours) && dayMatches schedule at_

def descending (values : Finset Nat) : List Nat := values.sort (· ≥ ·)

def timeOf (day : Int) (hour minute : Nat) : Int := day + (hour * 60 + minute) * MINUTE_MS

/-- The body of the innermost loop. -/
def push (limit count : Int) (due : List Int) (time : Int) : List Int :=
  if time ≤ limit ∧ (due.length : Int) < count then due ++ [time] else due

def visitDay (schedule : CronSchedule) (limit count day : Int) (due : List Int) : List Int :=
  (descending schedule.hours).foldl
    (fun due hour =>
      (descending schedule.minutes).foldl (fun due minute => push limit count due (timeOf day hour minute)) due) due

/-- The loop over the days; the first number is how many are left. -/
def searchDays (schedule : CronSchedule) (today limit count : Int) : Nat → Nat → List Int → List Int
  | 0, _, due => due
  | left + 1, back, due =>
    if (due.length : Int) < count then
      let day := today - back * DAY_MS
      searchDays schedule today limit count left (back + 1)
        (if dayMatches schedule day then visitDay schedule limit count day due else due)
    else due

/-- The latest `count` due minutes at or before `at_`, newest first. -/
def previousDue (schedule : CronSchedule) (at_ count : Int) : List Int :=
  let limit := at_ / MINUTE_MS * MINUTE_MS
  let today := dateUTC (getUTCFullYear at_) (getUTCMonth at_) (getUTCDate at_)
  searchDays schedule today limit count (SEARCH_DAYS + 1) 0 []

/-! ## What an expression says -/

/-- A range, its step apart. -/
inductive Range
  | all
  | one (n : Nat)
  | span (a b : Nat)

structure Item where
  range : Range
  step : Option Nat

/-- Decimal digits, of any number. -/
def Spells (text : List Char) (n : Nat) : Prop :=
  text ≠ [] ∧ (∀ c ∈ text, FixedText.isDigit c = true) ∧ FixedText.decimal text = n

inductive RangeText : List Char → Range → Prop
  | all : RangeText ['*'] .all
  | one {text : List Char} {n : Nat} : Spells text n → RangeText text (.one n)
  | span {low high : List Char} {a b : Nat} : Spells low a → Spells high b → RangeText (low ++ '-' :: high) (.span a b)

inductive ItemText : List Char → Item → Prop
  | plain {text : List Char} {range : Range} : RangeText text range → ItemText text ⟨range, none⟩
  | stepped {text step : List Char} {range : Range} {n : Nat} : RangeText text range → Spells step n →
      ItemText (text ++ '/' :: step) ⟨range, some n⟩

/-- The numbers are of the field. -/
def Range.Fits (field : Field) : Range → Prop
  | .all => True
  | .one n => field.min ≤ n ∧ n ≤ field.max
  | .span a b => field.min ≤ a ∧ a ≤ b ∧ b ≤ field.max

def Item.Fits (field : Field) (item : Item) : Prop :=
  item.range.Fits field ∧ ∀ n ∈ item.step, 1 ≤ n ∧ n ≤ field.max + 1

/-- The first and the last value; a number with a step runs to the end of its field. -/
def Item.bounds (field : Field) (item : Item) : Nat × Nat :=
  match item.range with
  | .all => (field.min, field.max)
  | .one n => (n, if item.step.isSome then field.max else n)
  | .span a b => (a, b)

def Item.Holds (field : Field) (item : Item) (value : Nat) : Prop :=
  (item.bounds field).1 ≤ value ∧ value ≤ (item.bounds field).2 ∧ (value - (item.bounds field).1) % item.step.getD 1 = 0

/-- A comma list of items of the field. -/
def FieldText (field : Field) (text : List Char) (items : List Item) : Prop :=
  ∃ texts, text = [','].intercalate texts ∧ texts ≠ [] ∧ List.Forall₂ ItemText texts items ∧ ∀ item ∈ items, item.Fits field

/-- The five fields of an expression, and whether each day field is stated from a `*` on. -/
structure Cron where
  minute : List Item
  hour : List Item
  dayOfMonth : List Item
  month : List Item
  dayOfWeek : List Item
  anyDayOfMonth : Bool
  anyDayOfWeek : Bool

def CronText (expression : String) (cron : Cron) : Prop :=
  ∃ minute hour dayOfMonth month dayOfWeek, expression.toList = [' '].intercalate [minute, hour, dayOfMonth, month, dayOfWeek] ∧
    FieldText MINUTE minute cron.minute ∧ FieldText HOUR hour cron.hour ∧ FieldText DAY_OF_MONTH dayOfMonth cron.dayOfMonth ∧
    FieldText MONTH month cron.month ∧ FieldText DAY_OF_WEEK dayOfWeek cron.dayOfWeek ∧
    (cron.anyDayOfMonth = true ↔ ['*'] <+: dayOfMonth) ∧ (cron.anyDayOfWeek = true ↔ ['*'] <+: dayOfWeek)

def HoldsAny (field : Field) (items : List Item) (value : Nat) : Prop := ∃ item ∈ items, item.Holds field value

/-- The minutes an expression is due in. -/
def Cron.Due (cron : Cron) (at_ : Int) : Prop :=
  let byMonth := HoldsAny DAY_OF_MONTH cron.dayOfMonth (getUTCDate at_)
  let byWeek := ∃ day, HoldsAny DAY_OF_WEEK cron.dayOfWeek day ∧ (if day = 7 then 0 else day) = getUTCDay at_
  HoldsAny MINUTE cron.minute (getUTCMinutes at_) ∧ HoldsAny HOUR cron.hour (getUTCHours at_) ∧
    HoldsAny MONTH cron.month (getUTCMonth at_ + 1) ∧
    if cron.anyDayOfMonth = false ∧ cron.anyDayOfWeek = false then byMonth ∨ byWeek else byMonth ∧ byWeek

end Fabrika.App.Schedule
