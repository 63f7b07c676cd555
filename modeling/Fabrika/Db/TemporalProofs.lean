/-
  Fabrika.Db.TemporalProofs — which days and timestamps the layer takes, and how it stores them
  (see `Fabrika.Db.Temporal`).

  A day is checked by way of `Date.UTC`, which reads the years 1 to 99 as others, so the check
  refuses the days of these years and no other day (`isCalendarDay_iff`). Everything else here
  reads and writes a year as it is: the stored text of an instant is the rendering of its fields,
  which stand in the order of time (`fields_lt`), and is read back field by field
  (`parseStored_toISOString`).
-/

import Fabrika.Db.Temporal

namespace Fabrika.Db.Temporal

open Fabrika.Lib Fabrika.Lib.Calendar Fabrika.Lib.FixedText

/-! ## The days of the calendar -/

/-- A day of the proleptic Gregorian calendar from 0001-01-01 to 9999-12-31. -/
structure CalendarDay where
  year : Nat
  month : Nat
  day : Nat
  year_pos : 1 ≤ year
  year_le : year ≤ 9999
  month_pos : 1 ≤ month
  valid : Valid year (month - 1) day

namespace CalendarDay

def text (day : CalendarDay) : String := String.ofList (render dayForm [day.year, day.month, day.day])

/-- The day's number, counted from 1970-01-01. -/
def number (day : CalendarDay) : Int := dayOf day.year (day.month - 1) day.day

/-- The date that is the day's midnight in UTC. -/
def midnight (day : CalendarDay) : Date := newDate (day.number * msPerDay)

theorem month_le (day : CalendarDay) : day.month ≤ 12 := by
  have hlt := day.valid.month_lt
  omega

theorem day_le (day : CalendarDay) : day.day ≤ 31 :=
  le_trans day.valid.date_le (one_le_daysInMonth _ _).2

theorem fits (day : CalendarDay) : Fits dayForm [day.year, day.month, day.day] := by
  have hyear := day.year_le
  have hmonth := day.month_le
  have hday := day.day_le
  exact .field (by omega) (.mark (.field (by omega) (.mark (.field (by omega) .nil))))

end CalendarDay

variable {value : String} {t s : Int}

variable {year day : Int} {place : String}

theorem dayOf_bounds {month date : Nat} (h : Valid year month date) :
    dayFromYear year ≤ dayOf year month date ∧ dayOf year month date < dayFromYear (year + 1) := by
  obtain ⟨hlt, hle⟩ := h.bounds
  have hone := h.one_le
  rw [dayFromYear_succ]
  unfold dayOf
  omega

/-- The years of four digits lie well within the range of a date. -/
theorem day_range (hpos : 0 ≤ year) (hle : year ≤ 9999) (hfrom : dayFromYear year ≤ day) (hto : day < dayFromYear (year + 1)) :
    -719528 ≤ day ∧ day < 2932897 := by
  have hstart := dayFromYear_le hpos
  have hend := @dayFromYear_le (year + 1) 10000 (by omega)
  have hzero : dayFromYear 0 = -719528 := by decide
  have hlast : dayFromYear 10000 = 2932897 := by decide
  omega

theorem timeClip_of_day {day time : Int} (hlow : -719529 ≤ day) (hhigh : day ≤ 2932897) (hpos : 0 ≤ time)
    (hlt : time < msPerDay) :
    timeClip (makeDate day time) = some (makeDate day time) := by
  apply if_pos
  unfold makeDate msPerDay maxTime
  unfold msPerDay at hlt
  omega

theorem dayOfTime_makeDate {time : Int} (hpos : 0 ≤ time) (hlt : time < msPerDay) : dayOfTime (makeDate day time) = day := by
  unfold dayOfTime makeDate msPerDay
  unfold msPerDay at hlt
  omega

theorem makeDay_valid {month date : Nat} (h : month < 12) : makeDay year month date = dayOf year month date := by
  have hdiv : (month : Int) / 12 = 0 := by omega
  have hmod : ((month : Int) % 12).toNat = month := by omega
  simp only [makeDay, hdiv, hmod, add_zero, dayOf]

theorem yearOf_ge (h : dayFromYear year ≤ day) : year ≤ yearOf day := by
  obtain ⟨-, hlt⟩ := yearOf_spec day
  by_contra hne
  have hle := @dayFromYear_le (yearOf day + 1) year (by omega)
  omega

/-- The check takes the days of the calendar from the year 100 on. -/
theorem isCalendarDay_iff {year month day : Nat} (hyear : year ≤ 9999) (hmonth : month ≤ 99) :
    isCalendarDay year month day = true ↔ 100 ≤ year ∧ 1 ≤ month ∧ Valid year (month - 1) day := by
  by_cases hearly : year ≤ 99
  · -- `Date.UTC` answers a day of the twentieth century, or one just before it.
    have hfull : (if 0 ≤ (year : Int) ∧ (year : Int) ≤ 99 then 1900 + (year : Int) else year) = 1900 + year := if_pos (by omega)
    constructor
    · intro h
      unfold isCalendarDay dateUTC timeClip at h
      rw [hfull] at h
      split at h
      · cases h
      · next date hdate =>
        split at hdate
        · cases hdate
          rw [decide_eq_true_eq] at h
          have hday : dayOfTime (makeDate (makeDay (1900 + year) ((month : Int) - 1) day) 0) =
              makeDay (1900 + year) ((month : Int) - 1) day :=
            dayOfTime_makeDate (le_refl 0) (by decide)
          have hsame := h.2.1
          rw [getUTCFullYear, hday] at hsame
          have hlate : dayFromYear 1898 ≤ makeDay (1900 + year) ((month : Int) - 1) day := by
            have hfrom := @dayFromYear_le 1899 (1900 + year + ((month : Int) - 1) / 12) (by omega)
            have hstep := @dayFromYear_lt 1898 1899 (by decide)
            simp only [makeDay]
            omega
          have hyear := yearOf_ge hlate
          omega
        · cases hdate
    · rintro ⟨hle, -⟩
      omega
  · have hfull : (if 0 ≤ (year : Int) ∧ (year : Int) ≤ 99 then 1900 + (year : Int) else year) = year := if_neg (by omega)
    constructor
    · intro h
      unfold isCalendarDay dateUTC timeClip at h
      rw [hfull] at h
      split at h
      · cases h
      · next date hdate =>
        split at hdate
        · cases hdate
          rw [decide_eq_true_eq] at h
          obtain ⟨-, hsameYear, hsameMonth, hsameDay⟩ := h
          rw [getUTCFullYear] at hsameYear
          rw [getUTCMonth] at hsameMonth
          rw [getUTCDate] at hsameDay
          have hvalid := valid_fields (dayOfTime (makeDate (makeDay year ((month : Int) - 1) day) 0))
          rw [hsameYear] at hvalid
          have hmonth' : monthOf (dayOfTime (makeDate (makeDay year ((month : Int) - 1) day) 0)) = month - 1 := by omega
          have hday' : dateOf (dayOfTime (makeDate (makeDay year ((month : Int) - 1) day) 0)) = day := by omega
          rw [hmonth', hday'] at hvalid
          exact ⟨by omega, by omega, hvalid⟩
        · cases hdate
    · rintro ⟨hle, hone, hvalid⟩
      have hcast : (month : Int) - 1 = ((month - 1 : Nat) : Int) := by omega
      obtain ⟨hfrom, hto⟩ := dayOf_bounds hvalid
      obtain ⟨hlow, hhigh⟩ := day_range (by omega) (by omega) hfrom hto
      have hclip := @timeClip_of_day (dayOf year (month - 1) day) 0 (by omega) (by omega) (le_refl 0) (by decide)
      have hdate : dateUTC year ((month : Int) - 1) day = some (makeDate (dayOf year (month - 1) day) 0) := by
        rw [dateUTC, hfull, hcast, makeDay_valid hvalid.month_lt, hclip]
      have hday : dayOfTime (makeDate (dayOf year (month - 1) day) 0) = dayOf year (month - 1) day :=
        dayOfTime_makeDate (le_refl 0) (by decide)
      unfold isCalendarDay
      rw [hdate]
      simp only [getUTCFullYear, getUTCMonth, getUTCDate, hday, yearOf_dayOf hvalid, monthOf_dayOf hvalid, dateOf_dayOf hvalid]
      rw [decide_eq_true_eq]
      exact ⟨by omega, trivial, hcast.symm, trivial⟩

theorem isCalendarDay_number (day : CalendarDay) : isCalendarDay day.year day.month day.day = true ↔ 100 ≤ day.year := by
  have hmonth := day.month_le
  rw [isCalendarDay_iff day.year_le (by omega)]
  exact ⟨fun h => h.1, fun h => ⟨h, day.month_pos, day.valid⟩⟩

/-! ## Day texts -/

theorem fits_dayForm {fields : List Nat} (h : Fits dayForm fields) :
    ∃ year month day, fields = [year, month, day] ∧ year ≤ 9999 ∧ month ≤ 99 ∧ day ≤ 99 := by
  cases h with
  | field hyear h =>
    cases h with
    | mark h =>
      cases h with
      | field hmonth h =>
        cases h with
        | mark h =>
          cases h with
          | field hday h =>
            cases h
            exact ⟨_, _, _, rfl, by omega, by omega, by omega⟩

theorem dash_digits (width n : Nat) : '-' ∉ digits width n := by
  intro hmem
  have hdigit := isDigit_of_mem_digits '-' hmem
  revert hdigit
  decide

/-- The parts of a day text are its numbers. -/
theorem parts_of_day {year month day : Nat} (h : Fits dayForm [year, month, day])
    (hvalue : value.toList = render dayForm [year, month, day]) :
    (Text.split value '-').map numberOf = [(year : Int), (month : Int), (day : Int)] := by
  have hnumber : ∀ {width n : Nat}, n < 10 ^ width → numberOf (String.ofList (digits width n)) = (n : Int) := by
    intro width n hn
    rw [numberOf, String.toList_ofList, decimal_digits, Nat.mod_eq_of_lt hn]
  obtain ⟨_, _, _, heq, hyear, hmonth, hday⟩ := fits_dayForm h
  cases heq
  have hsplit : Text.split value '-' = [String.ofList (digits 4 year), String.ofList (digits 2 month),
      String.ofList (digits 2 day)] := by
    have hjoin : value = (String.singleton '-').intercalate
        [String.ofList (digits 4 year), String.ofList (digits 2 month), String.ofList (digits 2 day)] := by
      apply String.toList_inj.mp
      rw [hvalue, String.toList_intercalate]
      simp [render, dayForm, List.intercalate_cons_cons]
    rw [hjoin]
    apply Text.split_join (by simp)
    simp [dash_digits]
  rw [hsplit, List.map_cons, List.map_cons, List.map_singleton, hnumber (by omega), hnumber (by omega), hnumber (by omega)]

theorem text_toList (day : CalendarDay) : day.text.toList = render dayForm [day.year, day.month, day.day] := String.toList_ofList

theorem isDayText_text (day : CalendarDay) : isDayText day.text = true := by
  rw [isDayText, text_toList, readForm_render day.fits]
  rfl

theorem dayInput_text (day : CalendarDay) (place : String) : dayInput day.text place = .ok day.text ↔ 100 ≤ day.year := by
  rw [dayInput, parts_of_day day.fits (text_toList day), ← isCalendarDay_number day]
  dsimp only
  rw [isDayText_text]
  cases isCalendarDay day.year day.month day.day with
  | true => exact ⟨fun _ => rfl, fun _ => rfl⟩
  | false =>
    constructor
    · intro h
      cases h
    · intro h
      cases h

/-- A text the check takes is of a day from the year 100 on. -/
theorem day_of_dayInput {value place answer : String} (h : dayInput value place = .ok answer) :
    answer = value ∧ ∃ day : CalendarDay, 100 ≤ day.year ∧ value = day.text := by
  have hsplit : isDayText value = true → ∃ year month day, value.toList = render dayForm [year, month, day] ∧
      Fits dayForm [year, month, day] := by
    intro htext
    obtain ⟨fields, hfields⟩ := Option.isSome_iff_exists.mp htext
    obtain ⟨hfits, hlist⟩ := readForm_eq_some.mp hfields
    obtain ⟨year, month, day, rfl, -⟩ := fits_dayForm hfits
    exact ⟨year, month, day, hlist, hfits⟩
  rw [dayInput] at h
  split at h
  · next year month day rest hparts =>
    split at h
    · cases h
    · next hok =>
      cases h
      simp only [Bool.or_eq_true, Bool.not_eq_true', not_or, Bool.not_eq_false] at hok
      obtain ⟨htext, hday⟩ := hok
      obtain ⟨y, m, d, hlist, hfits⟩ := hsplit htext
      obtain ⟨_, _, _, heq, hyear, hmonth, -⟩ := fits_dayForm hfits
      cases heq
      rw [parts_of_day hfits hlist] at hparts
      cases hparts
      obtain ⟨hle, hone, hvalid⟩ := (isCalendarDay_iff hyear hmonth).mp hday
      exact ⟨rfl, ⟨y, m, d, by omega, hyear, hone, hvalid⟩, hle, by rw [CalendarDay.text, ← hlist, String.ofList_toList]⟩
  · cases h

/-! ## ISO texts -/

/-- The fields of an instant's stored text. -/
def storedFields (t : Int) : List Nat :=
  (getUTCFullYear t).toNat :: (monthOf (dayOfTime t) + 1) :: dateOf (dayOfTime t) :: timeFields t

theorem timeInDay_bounds (t : Int) : 0 ≤ timeInDay t ∧ timeInDay t < msPerDay := by
  unfold timeInDay msPerDay
  omega

theorem toISOString_eq (hpos : 0 ≤ getUTCFullYear t) (hle : getUTCFullYear t ≤ 9999) :
    (toISOString t).toList = render storedForm (storedFields t) := by
  rw [toISOString, String.toList_ofList, yearText, if_pos ⟨hpos, hle⟩]
  rfl

theorem fits_storedFields (hpos : 0 ≤ getUTCFullYear t) (hle : getUTCFullYear t ≤ 9999) : Fits storedForm (storedFields t) := by
  obtain ⟨hlow, hhigh⟩ := timeInDay_bounds t
  unfold msPerDay at hhigh
  have hmonth := monthOf_lt (dayOfTime t)
  have hdate := le_trans (valid_fields (dayOfTime t)).date_le (one_le_daysInMonth _ _).2
  refine .field (by omega) (.mark (.field (by omega) (.mark
    (.field (by omega) (.mark (.field ?_ (.mark (.field ?_ (.mark (.field ?_
    (.mark (.field ?_ (.mark .nil)))))))))))))
  all_goals omega

/-- A year outside four digits is not of the stored form. -/
theorem toISOString_outside (h : ¬(0 ≤ getUTCFullYear t ∧ getUTCFullYear t ≤ 9999)) :
    readForm storedForm (toISOString t).toList = none := by
  rw [toISOString, String.toList_ofList, yearText, if_neg h, List.cons_append, readForm, storedForm, dayForm,
    List.cons_append, readPieces, if_neg]
  rintro ⟨-, hall⟩
  rw [List.take_succ_cons, List.all_cons, Bool.and_eq_true] at hall
  have hsign := hall.1
  split at hsign
  · revert hsign
    decide
  · revert hsign
    decide

theorem midnight_time (day : CalendarDay) : day.midnight.time = some (day.number * msPerDay) := by
  obtain ⟨hfrom, hto⟩ := dayOf_bounds day.valid
  have hyear := day.year_le
  obtain ⟨hlow, hhigh⟩ := day_range (by omega) (by omega) hfrom hto
  have hclip :=
    @timeClip_of_day day.number 0 (by unfold CalendarDay.number; omega) (by unfold CalendarDay.number; omega)
      (le_refl 0) (by decide)
  rw [makeDate, add_zero] at hclip
  exact hclip

theorem dayText_midnight (day : CalendarDay) (place : String) : dayText (.date day.midnight) place = .ok day.text := by
  have hday : dayOfTime (day.number * msPerDay) = day.number := by
    unfold dayOfTime msPerDay
    omega
  have hyear : getUTCFullYear (day.number * msPerDay) = day.year := by
    rw [getUTCFullYear, hday, CalendarDay.number, yearOf_dayOf day.valid]
  have hpos := day.year_pos
  have hle := day.year_le
  rw [dayText, midnight_time]
  dsimp only
  rw [if_neg]
  · have hmonth : monthOf day.number + 1 = day.month := by
      have hone := day.month_pos
      rw [CalendarDay.number, monthOf_dayOf day.valid]
      omega
    have hdate : dateOf day.number = day.day := by rw [CalendarDay.number, dateOf_dayOf day.valid]
    rw [toISOString_eq (by omega) (by omega), storedFields, hyear, hday, hmonth, hdate, CalendarDay.text]
    have htake : (render storedForm ((day.year : Int).toNat :: day.month :: day.day ::
        timeFields (day.number * msPerDay))).take 10 =
        render dayForm [day.year, day.month, day.day] := by
      have hform : render storedForm ((day.year : Int).toNat :: day.month :: day.day :: timeFields (day.number * msPerDay)) =
          render dayForm [day.year, day.month, day.day] ++
            render (timeForm ++ (secondForm ++ [.mark '.', .field 3, .mark 'Z'])) (timeFields (day.number * msPerDay)) := by
        simp [storedForm, dayForm, render]
      rw [hform, List.take_left']
      simp [dayForm, render]
    rw [htake]
    rfl
  · rw [hyear]
    unfold msPerDay
    omega

/-! ## Timestamp texts -/

namespace TimestampMatch

/-- The time and the offset are ones a clock shows. -/
structure InRange (m : TimestampMatch) : Prop where
  hour : m.hour < 24
  minute : m.minute < 60
  second : m.second < 60
  offsetHour : m.offsetHour < 16
  offsetMinute : m.offsetMinute < 60

/-- The day part is a day of the calendar. -/
def OfDay (m : TimestampMatch) (day : CalendarDay) : Prop := m.year = day.year ∧ m.month = day.month ∧ m.day = day.day

end TimestampMatch

theorem fits_dateTime {fields : List Nat} (h : Fits (dayForm ++ timeForm) fields) :
    ∃ year month day hour minute, fields = [year, month, day, hour, minute] ∧ year ≤ 9999 ∧ month ≤ 99 := by
  cases h with
  | field hyear h =>
    cases h with
    | mark h =>
      cases h with
      | field hmonth h =>
        cases h with
        | mark h =>
          cases h with
          | field _ h =>
            cases h with
            | mark h =>
              cases h with
              | field _ h =>
                cases h with
                | mark h =>
                  cases h with
                  | field _ h =>
                    cases h
                    exact ⟨_, _, _, _, _, rfl, by omega, by omega⟩

theorem execTimestamp_bounds {m : TimestampMatch} (h : execTimestamp value = some m) :
    m.year ≤ 9999 ∧ m.month ≤ 99 ∧ m.fraction.length ≤ 6 ∧ ∀ c ∈ m.fraction, isDigit c = true := by
  have hseconds : ∀ cs, (readSeconds cs).2.1.length ≤ 6 ∧ ∀ c ∈ (readSeconds cs).2.1, isDigit c = true := by
    intro cs
    unfold readSeconds
    split
    · next rest _ =>
      dsimp only
      split
      · exact ⟨Nat.zero_le 6, by simp⟩
      · refine ⟨?_, fun c hc => List.mem_takeWhile_imp hc⟩
        exact le_trans (List.takeWhile_sublist _).length_le (List.length_take_le 6 rest)
    · exact ⟨Nat.zero_le 6, by simp⟩
    · exact ⟨Nat.zero_le 6, by simp⟩
  unfold execTimestamp at h
  split at h
  · next year month day hour minute rest hread =>
    obtain ⟨_, _, _, _, _, heq, hyear, hmonth⟩ := fits_dateTime (readPieces_eq_some hread).1
    cases heq
    obtain ⟨zone, hzone, rfl⟩ := Option.map_eq_some_iff.mp h
    exact ⟨hyear, hmonth, hseconds rest⟩
  · cases h

theorem instantOf_isSome : (instantOf value).isSome = true ↔
    ∃ m, execTimestamp value = some m ∧ isCalendarDay m.year m.month m.day = true ∧ m.InRange := by
  unfold instantOf
  cases hexec : execTimestamp value with
  | none => simp
  | some m =>
    dsimp only
    by_cases hvalid : isCalendarDay m.year m.month m.day = true ∧ m.hour < 24 ∧ m.minute < 60 ∧ m.second < 60 ∧
      m.offsetHour < 16 ∧
        m.offsetMinute < 60
    · rw [if_pos hvalid]
      obtain ⟨hday, hhour, hminute, hsecond, hoffsetHour, hoffsetMinute⟩ := hvalid
      exact ⟨fun _ => ⟨m, rfl, hday, hhour, hminute, hsecond, hoffsetHour, hoffsetMinute⟩, fun _ => rfl⟩
    · rw [if_neg hvalid]
      constructor
      · intro h
        cases h
      · rintro ⟨_, ⟨⟩, hday, hrange⟩
        exact absurd ⟨hday, hrange.hour, hrange.minute, hrange.second, hrange.offsetHour, hrange.offsetMinute⟩ hvalid

theorem timestampInput_ok : timestampInput value place = .ok value ↔ (instantOf value).isSome = true := by
  rw [timestampInput]
  cases instantOf value with
  | none =>
    constructor
    · intro h
      cases h
    · intro h
      cases h
  | some time => exact ⟨fun _ => rfl, fun _ => rfl⟩

/-! ## What the checks take -/

/-- A day text goes in and comes out as it is, and nothing else goes in. -/
structure DayRoundTrips (value place : String) : Prop where
  accepted : dayInput value place = .ok value ↔ ∃ day : CalendarDay, value = day.text
  refused : (¬∃ day : CalendarDay, value = day.text) → ∃ message, dayInput value place = .error (.invalidValue message)
  answered : ∀ day : CalendarDay, value = day.text →
    dayText (.text value) place = .ok value ∧ dayText (.date day.midnight) place = .ok value

/-- A timestamp's text whose time and offset are in range goes in where its day part is a day of
    the calendar. -/
def TimestampChecked (value place : String) : Prop := ∀ m, execTimestamp value = some m → m.InRange →
  (timestampInput value place = .ok value ↔ ∃ day : CalendarDay, m.OfDay day)

theorem dayInput_result (value place : String) :
    dayInput value place = .ok value ∨ ∃ message, dayInput value place = .error (.invalidValue message) := by
  rw [dayInput]
  split
  · split
    · exact .inr ⟨_, rfl⟩
    · exact .inl rfl
  · exact .inr ⟨_, rfl⟩

/-- The layer takes every day and every timestamp it should but those of the years 1 to 99,
    which `Date.UTC` reads as years of the twentieth century. -/
theorem days_exact (value place : String) :
    (DayRoundTrips value place ↔ ¬∃ day : CalendarDay, value = day.text ∧ day.year < 100) ∧
      (TimestampChecked value place ↔
        ¬∃ m, ∃ day : CalendarDay, execTimestamp value = some m ∧ m.InRange ∧ m.OfDay day ∧ day.year < 100) := by
  constructor
  · constructor
    · rintro ⟨haccepted, -, -⟩ ⟨day, rfl, hearly⟩
      have hok := (dayInput_text day place).mp (haccepted.mpr ⟨day, rfl⟩)
      omega
    · intro hlate
      have haccepted : dayInput value place = .ok value ↔ ∃ day : CalendarDay, value = day.text := by
        constructor
        · intro h
          obtain ⟨-, day, -, rfl⟩ := day_of_dayInput h
          exact ⟨day, rfl⟩
        · rintro ⟨day, rfl⟩
          rw [dayInput_text]
          by_contra hearly
          exact hlate ⟨day, rfl, by omega⟩
      refine ⟨haccepted, ?_, ?_⟩
      · intro hnone
        rcases dayInput_result value place with hok | hrefused
        · exact absurd (haccepted.mp hok) hnone
        · exact hrefused
      · rintro day rfl
        refine ⟨?_, dayText_midnight day place⟩
        rw [dayText, if_pos (isDayText_text day)]
        rfl
  · constructor
    · rintro hchecked ⟨m, day, hexec, hrange, hday, hearly⟩
      have hok := (hchecked m hexec hrange).mpr ⟨day, hday⟩
      rw [timestampInput_ok, instantOf_isSome] at hok
      obtain ⟨m', hexec', hcalendar, -⟩ := hok
      rw [hexec] at hexec'
      cases hexec'
      obtain ⟨hyear, hmonth, hdate⟩ := hday
      rw [hyear, hmonth, hdate, isCalendarDay_number] at hcalendar
      omega
    · intro hlate m hexec hrange
      obtain ⟨hyear, hmonth, -⟩ := execTimestamp_bounds hexec
      rw [timestampInput_ok, instantOf_isSome]
      constructor
      · rintro ⟨m', hexec', hcalendar, -⟩
        rw [hexec] at hexec'
        cases hexec'
        obtain ⟨hle, hone, hvalid⟩ := (isCalendarDay_iff hyear hmonth).mp hcalendar
        exact ⟨⟨m.year, m.month, m.day, by omega, hyear, hone, hvalid⟩, rfl, rfl, rfl⟩
      · rintro ⟨day, hday⟩
        refine ⟨m, hexec, ?_, hrange⟩
        have hcalendar : isCalendarDay day.year day.month day.day = true := by
          rw [isCalendarDay_number]
          by_contra hearly
          exact hlate ⟨m, day, hexec, hrange, hday, by omega⟩
        obtain ⟨hyear', hmonth', hdate'⟩ := hday
        rw [hyear', hmonth', hdate', hcalendar]

/-- The first day of the year 99 is refused. -/
theorem early_day_refused : ¬∀ value place, DayRoundTrips value place ∧ TimestampChecked value place := by
  intro h
  have hok := (h "0099-01-01" "bookings.on").1.accepted.mpr ⟨⟨99, 1, 1, by decide, by decide, by decide, by decide⟩, by decide⟩
  have hrefused : dayInput "0099-01-01" "bookings.on" ≠ .ok "0099-01-01" := by decide
  exact hrefused hok

/-! ## Instants -/

/-- The instant of a timestamp's text, in microseconds since the epoch. -/
def TimestampMatch.micros (m : TimestampMatch) : Int :=
  let clock : Int := (m.hour * 60 + m.minute) * 60 + m.second
  let fraction : Int := decimal (m.fraction ++ List.replicate (6 - m.fraction.length) '0')
  let offset : Int := (m.offsetHour * 60 + m.offsetMinute) * 60
  (dayOf m.year (m.month - 1) m.day * 86400 + clock - (if m.negative then -offset else offset)) * 1000000 + fraction

/-- The instant of a date or of a text of the form, cut to the millisecond. -/
def instant : Value → Option Int
  | .text value => (execTimestamp value).map fun m => m.micros / 1000
  | .date value => value.time

/-- The first three digits are the whole thousands of six. -/
theorem milliseconds_eq {fraction : List Char} (hlength : fraction.length ≤ 6) (hdigits : ∀ c ∈ fraction, isDigit c = true) :
    milliseconds fraction = decimal (fraction ++ List.replicate (6 - fraction.length) '0') / 1000 ∧
      decimal (fraction ++ List.replicate (6 - fraction.length) '0') < 1000000 := by
  have hall : ∀ c ∈ fraction ++ List.replicate (6 - fraction.length) '0', isDigit c = true := by
    intro c hc
    rcases List.mem_append.mp hc with hc | hc
    · exact hdigits c hc
    · rw [List.eq_of_mem_replicate hc]
      decide
  have hsix : (fraction ++ List.replicate (6 - fraction.length) '0').length = 6 := by
    rw [List.length_append, List.length_replicate]
    omega
  have htake : (fraction ++ List.replicate (3 - fraction.length) '0').take 3 =
      (fraction ++ List.replicate (6 - fraction.length) '0').take 3 := by
    rw [List.take_append, List.take_append, List.take_replicate, List.take_replicate]
    congr 2
    omega
  rw [milliseconds, htake]
  generalize fraction ++ List.replicate (6 - fraction.length) '0' = whole at hall hsix ⊢
  have hsplit := decimal_append (whole.take 3) (whole.drop 3)
  have hlow := @decimal_lt (whole.drop 3) fun c hc => hall c (List.mem_of_mem_drop hc)
  have hwhole := decimal_lt hall
  rw [List.take_append_drop, List.length_drop, hsix] at hsplit
  rw [List.length_drop, hsix] at hlow
  rw [hsix] at hwhole
  omega

/-- What the code reads of a text it takes is the text's instant, cut to the millisecond. -/
theorem instantOf_eq {m : TimestampMatch} (hexec : execTimestamp value = some m)
    (hday : isCalendarDay m.year m.month m.day = true) (hrange : m.InRange) :
    instantOf value = some (some (m.micros / 1000)) ∧ -719530 * msPerDay < m.micros / 1000 ∧
    m.micros / 1000 < 2932898 * msPerDay := by
  obtain ⟨hyear, hmonth, hlength, hdigits⟩ := execTimestamp_bounds hexec
  obtain ⟨hle, hone, hvalid⟩ := (isCalendarDay_iff hyear hmonth).mp hday
  obtain ⟨hms, hfraction⟩ := milliseconds_eq hlength hdigits
  obtain ⟨hhour, hminute, hsecond, hoffsetHour, hoffsetMinute⟩ := hrange
  obtain ⟨hfrom, hto⟩ := dayOf_bounds hvalid
  obtain ⟨hlow, hhigh⟩ := day_range (by omega) (by omega) hfrom hto
  have hcast : (m.month : Int) - 1 = ((m.month - 1 : Nat) : Int) := by omega
  have hdate : setUTCFullYear 0 m.year ((m.month : Int) - 1) m.day = some (makeDate (dayOf m.year (m.month - 1) m.day) 0) := by
    rw [setUTCFullYear, hcast, makeDay_valid hvalid.month_lt]
    exact timeClip_of_day (by omega) (by omega) (le_refl 0) (by decide)
  have htime : 0 ≤ makeTime m.hour m.minute m.second (milliseconds m.fraction) ∧
      makeTime m.hour m.minute m.second (milliseconds m.fraction) < msPerDay := by
    unfold makeTime msPerDay
    omega
  have hclock : setUTCHours (makeDate (dayOf m.year (m.month - 1) m.day) 0) m.hour m.minute m.second (milliseconds m.fraction) =
      some (makeDate (dayOf m.year (m.month - 1) m.day) (makeTime m.hour m.minute m.second (milliseconds m.fraction))) := by
    rw [setUTCHours, dayOfTime_makeDate (le_refl 0) (by decide)]
    exact timeClip_of_day (by omega) (by omega) htime.1 htime.2
  have hmicros : m.micros / 1000 =
      makeDate (dayOf m.year (m.month - 1) m.day) (makeTime m.hour m.minute m.second (milliseconds m.fraction)) -
        (if m.negative then -(((m.offsetHour : Int) * 60 + m.offsetMinute) * 60000)
          else ((m.offsetHour : Int) * 60 + m.offsetMinute) * 60000) := by
    rw [hms]
    unfold TimestampMatch.micros makeDate makeTime msPerDay
    cases m.negative with
    | true =>
      simp only [if_true]
      omega
    | false =>
      simp only [Bool.false_eq_true, if_false]
      omega
  refine ⟨?_, ?_⟩
  · unfold instantOf
    rw [hexec]
    dsimp only
    rw [if_pos ⟨hday, hhour, hminute, hsecond, hoffsetHour, hoffsetMinute⟩, hdate, Option.bind_some, hclock,
      Option.map_some, hmicros]
  · rw [hmicros]
    obtain ⟨htimeLow, htimeHigh⟩ := htime
    unfold msPerDay at htimeHigh
    unfold makeDate msPerDay
    cases m.negative with
    | true =>
      simp only [if_true]
      omega
    | false =>
      simp only [Bool.false_eq_true, if_false]
      omega

/-! ## Stored texts -/

/-- The fields of a clock are in the order of its milliseconds. -/
theorem timeFields_lt (h : timeInDay s < timeInDay t) : timeFields s < timeFields t := by
  obtain ⟨hlow, -⟩ := timeInDay_bounds s
  unfold timeFields
  generalize timeInDay s = a at h hlow
  generalize timeInDay t = b at h
  rw [List.cons_lt_cons_iff]
  by_cases hhour : a / 3600000 < b / 3600000
  · exact .inl (by omega)
  · have hhours : a / 3600000 = b / 3600000 := by omega
    rw [List.cons_lt_cons_iff]
    by_cases hminute : a / 60000 < b / 60000
    · exact .inr ⟨by omega, .inl (by omega)⟩
    · have hminutes : a / 60000 = b / 60000 := by omega
      rw [List.cons_lt_cons_iff]
      by_cases hsecond : a / 1000 < b / 1000
      · exact .inr ⟨by omega, .inr ⟨by omega, .inl (by omega)⟩⟩
      · have hseconds : a / 1000 = b / 1000 := by omega
        rw [List.cons_lt_cons_iff]
        exact .inr ⟨by omega, .inr ⟨by omega, .inr ⟨by omega, .inl (by omega)⟩⟩⟩

/-- The year, month and date are in the order of days. -/
theorem dayFields_lt {x y : Int} (h : x < y) : yearOf x < yearOf y ∨ yearOf x = yearOf y ∧
    (monthOf x < monthOf y ∨ monthOf x = monthOf y ∧ dateOf x < dateOf y) := by
  by_contra hnot
  by_cases hsame : yearOf x = yearOf y ∧ monthOf x = monthOf y ∧ dateOf x = dateOf y
  · have hequal := dayOf_fields x
    rw [hsame.1, hsame.2.1, hsame.2.2, dayOf_fields] at hequal
    omega
  · have hback := dayOf_lt (valid_fields y) (valid_fields x) (by omega)
    rw [dayOf_fields, dayOf_fields] at hback
    omega

/-- The fields of stored texts are in the order of time. -/
theorem fields_lt (hpos : 0 ≤ getUTCFullYear s) (h : s < t) : storedFields s < storedFields t := by
  have hday : dayOfTime s < dayOfTime t ∨ dayOfTime s = dayOfTime t ∧ timeInDay s < timeInDay t := by
    unfold dayOfTime timeInDay msPerDay
    omega
  unfold getUTCFullYear at hpos
  unfold storedFields getUTCFullYear
  rcases hday with hday | ⟨hequal, htime⟩
  · rw [List.cons_lt_cons_iff, List.cons_lt_cons_iff, List.cons_lt_cons_iff]
    rcases dayFields_lt hday with hyear | ⟨hyear, hmonth | ⟨hmonth, hdate⟩⟩
    · exact .inl (by omega)
    · exact .inr ⟨by rw [hyear], .inl (by omega)⟩
    · exact .inr ⟨by rw [hyear], .inr ⟨by rw [hmonth], .inl hdate⟩⟩
  · rw [hequal, List.cons_lt_cons_iff, List.cons_lt_cons_iff, List.cons_lt_cons_iff]
    exact .inr ⟨rfl, .inr ⟨rfl, .inr ⟨rfl, timeFields_lt htime⟩⟩⟩

theorem toISOString_lt (hs : 0 ≤ getUTCFullYear s ∧ getUTCFullYear s ≤ 9999)
    (ht : 0 ≤ getUTCFullYear t ∧ getUTCFullYear t ≤ 9999) (h : s < t) : toISOString s < toISOString t := by
  rw [String.lt_iff, toISOString_eq hs.1 hs.2, toISOString_eq ht.1 ht.2]
  exact render_lt (fits_storedFields hs.1 hs.2) (fits_storedFields ht.1 ht.2) (fields_lt hs.1 h)

/-- `new Date(text)` reads a stored text back. -/
theorem parseStored_toISOString (hpos : 0 ≤ getUTCFullYear t) (hle : getUTCFullYear t ≤ 9999) :
    parseStored (toISOString t) = some t := by
  obtain ⟨hlow, hhigh⟩ := timeInDay_bounds t
  have hvalid := valid_fields (dayOfTime t)
  have hyear : ((getUTCFullYear t).toNat : Int) = getUTCFullYear t := Int.toNat_of_nonneg hpos
  obtain ⟨hfrom, hto⟩ := dayOf_bounds hvalid
  rw [dayOf_fields] at hfrom hto
  obtain ⟨hdayLow, hdayHigh⟩ := day_range hpos hle hfrom hto
  have htime : makeTime (timeInDay t / 3600000).toNat (timeInDay t / 60000 % 60).toNat (timeInDay t / 1000 % 60).toNat
      (timeInDay t % 1000).toNat = timeInDay t := by
    unfold makeTime
    unfold msPerDay at hhigh
    omega
  have hdate : makeDate (dayOfTime t) (timeInDay t) = t := by
    unfold makeDate dayOfTime timeInDay msPerDay
    omega
  have hday : makeDay (getUTCFullYear t) (monthOf (dayOfTime t)) (dateOf (dayOfTime t)) = dayOfTime t := by
    rw [makeDay_valid hvalid.month_lt, getUTCFullYear, dayOf_fields]
  have hclip := @timeClip_of_day (dayOfTime t) (timeInDay t) (by omega) (by omega) hlow hhigh
  rw [hdate] at hclip
  have hclock : (timeInDay t / 60000 % 60).toNat < 60 ∧ (timeInDay t / 1000 % 60).toNat < 60 ∧
      (timeInDay t / 3600000).toNat < 24 := by
    unfold msPerDay at hhigh
    omega
  unfold parseStored
  rw [toISOString_eq hpos hle, readForm_render (fits_storedFields hpos hle)]
  simp only [storedFields, timeFields]
  rw [if_pos]
  · have hmonth : ((monthOf (dayOfTime t) + 1 : Nat) : Int) - 1 = monthOf (dayOfTime t) := by omega
    rw [hyear, hmonth, hday, htime, hdate, hclip]
  · rw [hyear, Nat.add_sub_cancel]
    exact ⟨Nat.le_add_left 1 _, hvalid, hclock.1, hclock.2.1, .inl hclock.2.2⟩

/-- The year of an instant is one that four digits hold. -/
def Storable (t : Int) : Prop := 0 ≤ getUTCFullYear t ∧ getUTCFullYear t ≤ 9999

theorem newDate_time (h : -maxTime ≤ t ∧ t ≤ maxTime) : (newDate t).time = some t := if_pos h

/-- The time the code has read of a value. -/
def timeOf : Value → Option (Option Int)
  | .text value => instantOf value
  | .date value => some value.time

theorem storedTimestamp_of_time {value : Value} {place : String} {t : Int} (hrange : -maxTime ≤ t ∧ t ≤ maxTime)
    (htime : timeOf value = some (some t)) :
    (Storable t → storedTimestamp value place = .ok (toISOString t)) ∧
      (¬Storable t → ∃ message, storedTimestamp value place = .error (.invalidValue message)) := by
  have hstored : storedTimestamp value place =
      if (readForm storedForm (toISOString t).toList).isSome then pure (toISOString t)
      else throw (.invalidValue (place ++
        " holds an instant outside the years 0000-9999 UTC, which SQLite cannot store as sortable text")) := by
    cases value with
    | text value =>
      rw [timeOf] at htime
      simp only [storedTimestamp, htime, newDate_time hrange, pure_bind]
    | date value =>
      have hvalue : value.time = some t := Option.some.inj htime
      simp only [storedTimestamp, hvalue, newDate_time hrange, pure_bind]
  rw [hstored]
  constructor
  · intro hstorable
    have hform := readForm_render (fits_storedFields hstorable.1 hstorable.2)
    rw [← toISOString_eq hstorable.1 hstorable.2] at hform
    rw [hform]
    rfl
  · intro hstorable
    rw [toISOString_outside hstorable]
    exact ⟨_, rfl⟩

/-- A value is stored as its instant, or refused: a text the timestamp check refuses, and an
    instant of a year outside four digits. -/
theorem storedTimestamp_cases (value : Value) (place : String) :
    (∃ t, instant value = some t ∧ Storable t ∧ storedTimestamp value place = .ok (toISOString t)) ∨
      ((∃ message, storedTimestamp value place = .error (.invalidValue message)) ∧
        ((∃ text, value = .text text ∧ (instantOf text).isNone = true) ∨ ∀ t, instant value = some t → ¬Storable t)) := by
  cases value with
  | text text =>
    cases htime : instantOf text with
    | none =>
      refine .inr ⟨?_, .inl ⟨text, rfl, by rw [htime]; rfl⟩⟩
      unfold storedTimestamp
      simp only [htime]
      exact ⟨_, rfl⟩
    | some time =>
      obtain ⟨m, hexec, hday, hrange⟩ := (instantOf_isSome).mp (by rw [htime]; rfl)
      obtain ⟨heq, hlow, hhigh⟩ := instantOf_eq hexec hday hrange
      have hinstant : instant (.text text) = some (m.micros / 1000) := by rw [instant, hexec, Option.map_some]
      have hclip : -maxTime ≤ m.micros / 1000 ∧ m.micros / 1000 ≤ maxTime := by
        unfold msPerDay at hlow hhigh
        unfold maxTime
        omega
      obtain ⟨hstored, hrefused⟩ := @storedTimestamp_of_time (.text text) place (m.micros / 1000) hclip heq
      by_cases hstorable : Storable (m.micros / 1000)
      · exact .inl ⟨_, hinstant, hstorable, hstored hstorable⟩
      · refine .inr ⟨hrefused hstorable, .inr ?_⟩
        intro t ht
        rw [hinstant] at ht
        cases ht
        exact hstorable
  | date date =>
    cases htime : date.time with
    | none =>
      refine .inr ⟨?_, .inr ?_⟩
      · have hempty : readForm storedForm "".toList = none := by decide
        unfold storedTimestamp
        simp only [htime, pure_bind, hempty]
        exact ⟨_, rfl⟩
      · intro t ht
        rw [instant, htime] at ht
        cases ht
    | some t =>
      have hclip := date.inRange t htime
      obtain ⟨hstored, hrefused⟩ := @storedTimestamp_of_time (.date date) place t hclip (congrArg some htime)
      by_cases hstorable : Storable t
      · exact .inl ⟨t, htime, hstorable, hstored hstorable⟩
      · refine .inr ⟨hrefused hstorable, .inr ?_⟩
        intro t' ht'
        rw [instant, htime] at ht'
        cases ht'
        exact hstorable

theorem storedTimestamp_ok {value : Value} {stored : String} (h : storedTimestamp value place = .ok stored) :
    ∃ t, instant value = some t ∧ Storable t ∧ stored = toISOString t := by
  rcases storedTimestamp_cases value place with ⟨t, hinstant, hstorable, hstored⟩ | ⟨⟨message, hrefused⟩, -⟩
  · rw [hstored] at h
    cases h
    exact ⟨t, hinstant, hstorable, rfl⟩
  · rw [hrefused] at h
    cases h

/-- Stored texts are in the order of the instants, and each is read back as its own. -/
theorem stored_order {value other : Value} {place place' stored stored' : String} (h : storedTimestamp value place = .ok stored)
    (h' : storedTimestamp other place' = .ok stored') :
    ∃ t t', instant value = some t ∧ instant other = some t' ∧ (stored < stored' ↔ t < t') ∧ (stored = stored' ↔ t = t') ∧
      parseStored stored = some t := by
  obtain ⟨t, ht, hstorable, rfl⟩ := storedTimestamp_ok h
  obtain ⟨t', ht', hstorable', rfl⟩ := storedTimestamp_ok h'
  have hread := parseStored_toISOString hstorable.1 hstorable.2
  refine ⟨t, t', ht, ht', ?_, ?_, hread⟩
  · constructor
    · intro hlt
      rcases lt_trichotomy t t' with hless | rfl | hgreater
      · exact hless
      · exact absurd hlt (String.lt_irrefl _)
      · exact absurd (String.lt_trans hlt (toISOString_lt hstorable' hstorable hgreater)) (String.lt_irrefl _)
    · exact toISOString_lt hstorable hstorable'
  · constructor
    · intro heq
      rw [heq, parseStored_toISOString hstorable'.1 hstorable'.2] at hread
      exact (Option.some.inj hread).symm
    · rintro rfl
      rfl

theorem timestampInput_error {text : String} :
    (∃ thrown, timestampInput text place = .error thrown) ↔ (instantOf text).isNone = true := by
  rw [timestampInput]
  cases instantOf text with
  | none => exact ⟨fun _ => rfl, fun _ => ⟨_, rfl⟩⟩
  | some time =>
    constructor
    · rintro ⟨thrown, h⟩
      cases h
    · intro h
      cases h

theorem storedTimestamp_error {value : Value} : (∃ thrown, storedTimestamp value place = .error thrown) ↔
    (∃ text, value = .text text ∧ ∃ thrown, timestampInput text place = .error thrown) ∨ ¬∃ t, instant value = some t ∧
    Storable t := by
  simp only [timestampInput_error]
  constructor
  · rintro ⟨thrown, h⟩
    rcases storedTimestamp_cases value place with ⟨t, -, -, hstored⟩ | ⟨-, hwhy⟩
    · rw [hstored] at h
      cases h
    · exact hwhy.imp id fun hnone ⟨t, ht, hstorable⟩ => hnone t ht hstorable
  · rintro (⟨text, rfl, hnone⟩ | hnone)
    · rw [Option.isNone_iff_eq_none] at hnone
      unfold storedTimestamp
      simp only [hnone]
      exact ⟨_, rfl⟩
    · rcases storedTimestamp_cases value place with ⟨t, ht, hstorable, -⟩ | ⟨⟨message, hrefused⟩, -⟩
      · exact absurd ⟨t, ht, hstorable⟩ hnone
      · exact ⟨_, hrefused⟩

/-- Stored timestamps sort as time: of any two values stored, the texts are in the order of the
    instants, equal where these are, and read back as them; a value is refused where it is a text
    the timestamp check refuses or has no instant in the years 0000 to 9999. -/
theorem storedTimestamp_sorts (value : Value) (place : String) :
    (∀ stored other place' stored', storedTimestamp value place = .ok stored → storedTimestamp other place' = .ok stored' →
      ∃ t t', instant value = some t ∧ instant other = some t' ∧ (stored < stored' ↔ t < t') ∧ (stored = stored' ↔ t = t') ∧
        parseStored stored = some t) ∧
    ((∃ thrown, storedTimestamp value place = .error thrown) ↔
      (∃ text, value = .text text ∧ ∃ thrown, timestampInput text place = .error thrown) ∨
        ¬∃ t, instant value = some t ∧ Storable t) :=
  ⟨fun _ _ _ _ h h' => stored_order h h', storedTimestamp_error⟩

/-- Two texts of one instant, on two days of the year. -/
theorem sorts_across_days : ∃ t t', instant (.text "2024-03-01T00:30+01:00") = some t ∧
    instant (.text "2024-02-29T23:30:00.000Z") = some t' ∧
    ("2024-02-29T23:30:00.000Z" < "2024-02-29T23:30:00.000Z" ↔ t < t') ∧
      ("2024-02-29T23:30:00.000Z" = "2024-02-29T23:30:00.000Z" ↔ t = t') ∧ parseStored "2024-02-29T23:30:00.000Z" = some t :=
  (storedTimestamp_sorts (.text "2024-03-01T00:30+01:00") "bookings.at").1 "2024-02-29T23:30:00.000Z"
    (.text "2024-02-29T23:30:00.000Z")
    "bookings.at" "2024-02-29T23:30:00.000Z" (by decide) (by decide)

end Fabrika.Db.Temporal
