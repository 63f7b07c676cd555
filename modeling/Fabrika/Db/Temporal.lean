/-
  Fabrika.Db.Temporal — days and timestamps at the data layer's boundary (db/temporal.ts).

  A day is `YYYY-MM-DD` text; a timestamp is a `Date` or strict ISO 8601 text, stored on SQLite
  as UTC text to the millisecond. A `Date` is a whole number of milliseconds within the range of
  time values, or invalid. The date functions are the ones of ECMAScript over
  `Fabrika.Lib.Calendar`; in particular `Date.UTC` reads the years 0 to 99 as 1900 to 1999, while
  `setUTCFullYear` and the ISO text of a date keep them.

  Every refusal here is a `QueryRefusedError` whose reason is `invalid_value`.
-/

import Fabrika.Lib.Calendar
import Fabrika.Lib.FixedText
import Fabrika.Lib.Text

namespace Fabrika.Db.Temporal

open Fabrika.Lib Fabrika.Lib.Calendar Fabrika.Lib.FixedText

/-! ## Dates -/

def msPerDay : Int := 86400000

def maxTime : Int := 8640000000000000

/-- A time within the range of a date, none where the date is invalid. -/
def timeClip (t : Int) : Option Int := if -maxTime ≤ t ∧ t ≤ maxTime then some t else none

structure Date where
  time : Option Int
  inRange : ∀ t, time = some t → -maxTime ≤ t ∧ t ≤ maxTime

/-- `new Date(t)`. -/
def newDate (t : Int) : Date where
  time := timeClip t
  inRange s h := by
    unfold timeClip at h
    split at h
    · cases h
      assumption
    · cases h

def dayOfTime (t : Int) : Int := t / msPerDay

def timeInDay (t : Int) : Int := t % msPerDay

def makeTime (hour minute second ms : Int) : Int := hour * 3600000 + minute * 60000 + second * 1000 + ms

def makeDay (year month date : Int) : Int :=
  let full := year + month / 12
  dayFromYear full + monthStart (isLeap full) (month % 12).toNat + date - 1

def makeDate (day time : Int) : Int := day * msPerDay + time

/-- `Date.UTC(year, month, date)`: a year of one or two digits is of the twentieth century. -/
def dateUTC (year month date : Int) : Option Int :=
  timeClip (makeDate (makeDay (if 0 ≤ year ∧ year ≤ 99 then 1900 + year else year) month date) 0)

def getUTCFullYear (t : Int) : Int := yearOf (dayOfTime t)

/-- From 0. -/
def getUTCMonth (t : Int) : Int := monthOf (dayOfTime t)

def getUTCDate (t : Int) : Int := dateOf (dayOfTime t)

def setUTCFullYear (t year month date : Int) : Option Int := timeClip (makeDate (makeDay year month date) (timeInDay t))

def setUTCHours (t hour minute second ms : Int) : Option Int := timeClip (makeDate (dayOfTime t) (makeTime hour minute second ms))

/-! ## ISO texts -/

def dayForm : List Piece := [.field 4, .mark '-', .field 2, .mark '-', .field 2]

def timeForm : List Piece := [.mark 'T', .field 2, .mark ':', .field 2]

def secondForm : List Piece := [.mark ':', .field 2]

def storedForm : List Piece := dayForm ++ (timeForm ++ (secondForm ++ [.mark '.', .field 3, .mark 'Z']))

/-- A year past four digits has a sign and six. -/
def yearText (year : Int) : List Char :=
  if 0 ≤ year ∧ year ≤ 9999 then digits 4 year.toNat
  else (if year < 0 then '-' else '+') :: digits 6 year.natAbs

def timeFields (t : Int) : List Nat :=
  [(timeInDay t / 3600000).toNat, (timeInDay t / 60000 % 60).toNat, (timeInDay t / 1000 % 60).toNat, (timeInDay t % 1000).toNat]

/-- `new Date(t).toISOString()` of a valid date. -/
def toISOString (t : Int) : String :=
  String.ofList (yearText (getUTCFullYear t) ++
    render ([.mark '-', .field 2, .mark '-', .field 2] ++ (timeForm ++ (secondForm ++ [.mark '.', .field 3, .mark 'Z'])))
      ((monthOf (dayOfTime t) + 1) :: dateOf (dayOfTime t) :: timeFields t))

/-- `new Date(text)` of a text of the stored form: none where a field is out of range. -/
def parseStored (text : String) : Option Int :=
  match readForm storedForm text.toList with
  | some [year, month, date, hour, minute, second, ms] =>
    if 1 ≤ month ∧ Valid year (month - 1) date ∧ minute < 60 ∧ second < 60 ∧
        (hour < 24 ∨ hour = 24 ∧ minute = 0 ∧ second = 0 ∧ ms = 0) then
      timeClip (makeDate (makeDay year (month - 1) date) (makeTime hour minute second ms))
    else none
  | _ => none

example : toISOString (-1) = "1969-12-31T23:59:59.999Z" ∧ toISOString 253402300800000 = "+010000-01-01T00:00:00.000Z" := by
  decide

/-! ## Days -/

inductive Thrown
  /-- A `QueryRefusedError` of the reason `invalid_value`. -/
  | invalidValue (message : String)
  /-- `toISOString` of an invalid date. -/
  | rangeError
  deriving DecidableEq

def refused (place : String) : Thrown :=
  .invalidValue (place ++ " holds a date outside 0001-01-01 to 9999-12-31, which the layer cannot read as YYYY-MM-DD")

/-- `DAY_TEXT.test(value)`. -/
def isDayText (value : String) : Bool := (readForm dayForm value.toList).isSome

/-- `string | Date`. -/
inductive Value
  | text (value : String)
  | date (value : Date)

/-- A day as the layer answers it: its text, or a date that is exactly a UTC midnight. -/
def dayText (value : Value) (place : String) : Except Thrown String :=
  match value with
  | .text value => if isDayText value then pure value else throw (refused place)
  | .date value =>
    match value.time with
    | none => throw (refused place)
    | some time =>
      if time % msPerDay ≠ 0 ∨ getUTCFullYear time < 1 ∨ 9999 < getUTCFullYear time then throw (refused place)
      else pure (String.ofList ((toISOString time).toList.take 10))

def isCalendarDay (year month day : Int) : Bool :=
  match dateUTC year (month - 1) day with
  | none => false
  | some date => 1 ≤ year ∧ getUTCFullYear date = year ∧ getUTCMonth date = month - 1 ∧ getUTCDate date = day

/-- `Number(part)` of a part that holds digits only, as the parts of a day text do. -/
def numberOf (part : String) : Int := decimal part.toList

/-- A day a write binds. -/
def dayInput (value place : String) : Except Thrown String :=
  let refusal := Thrown.invalidValue (place ++ " takes a day as YYYY-MM-DD text, such as 2026-10-12")
  match (Text.split value '-').map numberOf with
  | year :: month :: day :: _ => if !isDayText value || !isCalendarDay year month day then throw refusal else pure value
  | _ => throw refusal

/-! ## Timestamps -/

/-- What `TIMESTAMP_TEXT` captures, with the defaults of the groups that may be missing. -/
structure TimestampMatch where
  year : Nat
  month : Nat
  day : Nat
  hour : Nat
  minute : Nat
  second : Nat
  /-- The digits after the point, at most six. -/
  fraction : List Char
  negative : Bool
  offsetHour : Nat
  offsetMinute : Nat

/-- The group `(?::ss(?:.f)?)?`: the seconds and the fraction, and the text after them. -/
def readSeconds (cs : List Char) : Nat × List Char × List Char :=
  match readPieces secondForm cs with
  | some ([second], '.' :: rest) =>
    let fraction := (rest.take 6).takeWhile isDigit
    if fraction = [] then (second, [], '.' :: rest) else (second, fraction, rest.drop fraction.length)
  | some ([second], rest) => (second, [], rest)
  | _ => (0, [], cs)

/-- The group `(?:Z|±hh:mm)`, which ends the text. -/
def readZone (cs : List Char) : Option (Bool × Nat × Nat) :=
  match cs with
  | ['Z'] => some (false, 0, 0)
  | sign :: rest =>
    if sign = '+' ∨ sign = '-' then
      match readForm [.field 2, .mark ':', .field 2] rest with
      | some [hour, minute] => some (sign = '-', hour, minute)
      | _ => none
    else none
  | [] => none

/-- `TIMESTAMP_TEXT.exec(value)`. -/
def execTimestamp (value : String) : Option TimestampMatch :=
  match readPieces (dayForm ++ timeForm) value.toList with
  | some ([year, month, day, hour, minute], rest) =>
    let (second, fraction, rest) := readSeconds rest
    (readZone rest).map fun (negative, offsetHour, offsetMinute) =>
      ⟨year, month, day, hour, minute, second, fraction, negative, offsetHour, offsetMinute⟩
  | _ => none

/-- `Number(fraction.padEnd(3, '0').slice(0, 3))`. -/
def milliseconds (fraction : List Char) : Nat := decimal ((fraction ++ List.replicate (3 - fraction.length) '0').take 3)

/-- The instant of strict ISO text: none where it is not of the form or a field is out of range, and then a number
    (none stands for NaN). -/
def instantOf (value : String) : Option (Option Int) :=
  match execTimestamp value with
  | none => none
  | some m =>
    if isCalendarDay m.year m.month m.day ∧ m.hour < 24 ∧ m.minute < 60 ∧ m.second < 60 ∧ m.offsetHour < 16 ∧
      m.offsetMinute < 60 then
      let date := setUTCFullYear 0 m.year ((m.month : Int) - 1) m.day
      let date := date.bind fun t => setUTCHours t m.hour m.minute m.second (milliseconds m.fraction)
      let offset : Int := (m.offsetHour * 60 + m.offsetMinute) * 60000
      some (date.map fun t => t - (if m.negative then -offset else offset))
    else none

def timestampRefused (place : String) : Thrown :=
  .invalidValue (place ++ " takes a Date or ISO 8601 text with Z or an offset, such as 2026-10-12T08:30:00.000Z")

/-- A timestamp a write binds as text. -/
def timestampInput (value place : String) : Except Thrown String :=
  if (instantOf value).isNone then throw (timestampRefused place) else pure value

/-- What a write or a comparison binds for a timestamp on SQLite. -/
def storedTimestamp (value : Value) (place : String) : Except Thrown String := do
  let time := match value with
    | .text value => instantOf value
    | .date value => some value.time
  match time with
  | none => throw (timestampRefused place)
  | some time =>
    let text ← match time with
      | none => pure ""
      | some time =>
        match (newDate time).time with
        | none => throw .rangeError
        | some time => pure (toISOString time)
    if (readForm storedForm text.toList).isSome then pure text
    else throw (.invalidValue (place ++
      " holds an instant outside the years 0000-9999 UTC, which SQLite cannot store as sortable text"))

example : (storedTimestamp (.text "2026-10-12T08:30+02:00") "t.at") = .ok "2026-10-12T06:30:00.000Z" := by decide

end Fabrika.Db.Temporal
