/-
  Fabrika.App.ScheduleProofs — the two readers of a cron schedule agree.

  `parseCron` reads exactly the expressions of the grammar (`parseCron_text`, `parseCron_some`), and what it reads
  is due in the minutes the expression names (`isDueAt_iff`). `previousDue` is the first `count`
  of one descending list (`searchDays_eq`): the due minutes of the days it searches.
-/

import Mathlib.Data.List.Forall2
import Fabrika.App.Schedule

namespace Fabrika.App.Schedule

open Fabrika.Lib

/-! ## Numbers -/

variable {field : Field} {text : List Char} {sep : Char} {item : Item} {items : List Item} {texts : List (List Char)}
variable {cron : Cron} {expression : String} {schedule : CronSchedule}

variable {values : Finset Nat}

theorem number_eq_some {n : Nat} : number text field = some n ↔ Spells text n ∧ field.min ≤ n ∧ n ≤ field.max := by
  have hdigits : (text ≠ [] ∧ text.all FixedText.isDigit = true) ↔ text ≠ [] ∧ ∀ c ∈ text, FixedText.isDigit c = true := by
    rw [List.all_eq_true]
  unfold number Spells
  by_cases h : text ≠ [] ∧ text.all FixedText.isDigit = true
  · obtain ⟨hne, hall⟩ := hdigits.mp h
    rw [if_pos h]
    dsimp only
    by_cases hrange : field.min ≤ FixedText.decimal text ∧ FixedText.decimal text ≤ field.max
    · rw [if_pos hrange, Option.some.injEq]
      constructor
      · intro heq
        subst heq
        exact ⟨⟨hne, hall, rfl⟩, hrange⟩
      · exact fun hspells => hspells.1.2.2
    · rw [if_neg hrange]
      refine ⟨(fun hnone => nomatch hnone), fun hspells => ?_⟩
      rw [hspells.1.2.2] at hrange
      exact absurd hspells.2 hrange
  · rw [if_neg h]
    exact ⟨(fun hnone => nomatch hnone), fun hspells => absurd (hdigits.mpr ⟨hspells.1.1, hspells.1.2.1⟩) h⟩

theorem Spells.not_mem {n : Nat} (h : Spells text n) (hsep : FixedText.isDigit sep = false) : sep ∉ text := by
  intro hmem
  rw [h.2.1 sep hmem] at hsep
  cases hsep

/-! ## Items -/

theorem RangeText.not_mem {range : Range} (h : RangeText text range) (hsep : FixedText.isDigit sep = false) (hstar : sep ≠ '*')
    (hdash : sep ≠ '-') : sep ∉ text := by
  cases h with
  | all => simpa using hstar
  | one h => exact h.not_mem hsep
  | span hlow hhigh =>
    rw [List.mem_append, List.mem_cons, not_or, not_or]
    exact ⟨hlow.not_mem hsep, hdash, hhigh.not_mem hsep⟩

theorem ItemText.not_mem (h : ItemText text item) (hsep : FixedText.isDigit sep = false) (hstar : sep ≠ '*') (hdash : sep ≠ '-')
    (hslash : sep ≠ '/') : sep ∉ text := by
  cases h with
  | plain h => exact h.not_mem hsep hstar hdash
  | stepped h hstep =>
    rw [List.mem_append, List.mem_cons, not_or, not_or]
    exact ⟨h.not_mem hsep hstar hdash, hslash, hstep.not_mem hsep⟩

theorem parseRange_text {range : Range} (h : RangeText text range) (hfits : range.Fits field) (step : Option Nat) :
    parseRange text step.isSome field = some (Item.bounds field ⟨range, step⟩) := by
  have hstar : FixedText.isDigit '*' = false := by decide
  have hdash : FixedText.isDigit '-' = false := by decide
  unfold parseRange
  cases h with
  | all => exact if_pos rfl
  | one hn =>
    have hne : text ≠ ['*'] := by
      rintro rfl
      exact hn.not_mem hstar List.mem_cons_self
    rw [if_neg hne, Text.splitChars_of_not_mem (hn.not_mem hdash)]
    dsimp only
    rw [(number_eq_some).mpr ⟨hn, hfits⟩]
    rfl
  | @span low high a b hlow hhigh =>
    obtain ⟨hmin, hle, hmax⟩ := hfits
    have hne : low ++ '-' :: high ≠ ['*'] := by
      intro heq
      have hmem : '-' ∈ ['*'] := heq ▸ by simp
      exact absurd hmem (by decide)
    rw [if_neg hne, Text.splitChars_append (hlow.not_mem hdash), Text.splitChars_of_not_mem (hhigh.not_mem hdash)]
    dsimp only
    rw [(number_eq_some).mpr ⟨hlow, hmin, hle.trans hmax⟩, (number_eq_some).mpr ⟨hhigh, hmin.trans hle, hmax⟩]
    rfl

theorem parseRange_some {stepped : Bool} {a b : Nat} (h : parseRange text stepped field = some (a, b)) (hle : a ≤ b) :
    ∃ range, RangeText text range ∧ range.Fits field := by
  unfold parseRange at h
  by_cases hall : text = ['*']
  · subst hall
    exact ⟨.all, .all, trivial⟩
  · rw [if_neg hall] at h
    have hjoin := Text.join_splitChars '-' text
    generalize Text.splitChars '-' text = parts at h hjoin
    match parts, h with
    | [low], h =>
      obtain ⟨n, hn, -⟩ := Option.bind_eq_some_iff.mp h
      rw [List.intercalate_singleton] at hjoin
      subst hjoin
      obtain ⟨hspells, hrange⟩ := (number_eq_some).mp hn
      exact ⟨.one n, .one hspells, hrange⟩
    | [low, high], h =>
      obtain ⟨n, hn, h⟩ := Option.bind_eq_some_iff.mp h
      obtain ⟨m, hm, h⟩ := Option.bind_eq_some_iff.mp h
      cases h
      obtain ⟨hlow, hmin, -⟩ := (number_eq_some).mp hn
      obtain ⟨hhigh, -, hmax⟩ := (number_eq_some).mp hm
      refine ⟨.span a b, ?_, hmin, hle, hmax⟩
      rw [← hjoin, List.intercalate_cons_cons, List.intercalate_singleton, List.append_assoc]
      exact .span hlow hhigh

theorem Item.bounds_le (hfield : field.min ≤ field.max) (h : item.Fits field) :
    (item.bounds field).1 ≤ (item.bounds field).2 := by
  obtain ⟨range, step⟩ := item
  obtain ⟨hrange, -⟩ := h
  cases range with
  | all => exact hfield
  | one n =>
    unfold bounds
    dsimp only
    split
    · exact hrange.2
    · exact le_refl n
  | span a b => exact hrange.2.1

/-- The values of the loop from `start` to `last` in steps of `every`. -/
theorem mem_steps {start last every v : Nat} (hle : start ≤ last) :
    v ∈ List.range' start ((last - start) / every + 1) every ↔ start ≤ v ∧ v ≤ last ∧ (v - start) % every = 0 := by
  rw [List.mem_range']
  constructor
  · intro ⟨i, hi, heq⟩
    have hmul : every * i ≤ last - start := by
      have hdiv : i ≤ (last - start) / every := by omega
      exact (Nat.mul_le_mul_left every hdiv).trans (Nat.mul_div_le _ _)
    subst heq
    refine ⟨Nat.le_add_right _ _, by omega, ?_⟩
    rw [Nat.add_sub_cancel_left, Nat.mul_mod_right]
  · intro ⟨hstart, hlast, hmod⟩
    have hexact : every * ((v - start) / every) = v - start := Nat.mul_div_cancel' (Nat.dvd_of_mod_eq_zero hmod)
    refine ⟨(v - start) / every, ?_, by omega⟩
    exact Nat.lt_succ_of_le (Nat.div_le_div_right (by omega))

theorem parseItem_text (hfield : field.min ≤ field.max) (h : ItemText text item) (hfits : item.Fits field) :
    ∃ added, parseItem text field = some added ∧ ∀ v, v ∈ added ↔ item.Holds field v := by
  have hslash : FixedText.isDigit '/' = false := by decide
  have hle := Item.bounds_le hfield hfits
  obtain ⟨range, step⟩ := item
  cases h with
  | plain hrange =>
    have hsplit : splitStep text = some (text, none) := by
      unfold splitStep
      rw [Text.splitChars_of_not_mem (hrange.not_mem hslash (by decide) (by decide))]
    have hparse := parseRange_text hrange hfits.1 none
    refine ⟨_, ?_, fun v => mem_steps hle⟩
    unfold parseItem
    rw [hsplit]
    simp only [Option.isSome_none] at hparse
    simp only [Option.bind_eq_bind, Option.bind_some, parseStep, Option.isSome_none, hparse]
    exact if_neg (Nat.not_lt.mpr hle)
  | @stepped front back _ n hrange hstep =>
    have hsplit : splitStep (front ++ '/' :: back) = some (front, some back) := by
      unfold splitStep
      rw [Text.splitChars_append (hrange.not_mem hslash (by decide) (by decide)),
        Text.splitChars_of_not_mem (hstep.not_mem hslash)]
    have hnumber : number back ⟨1, field.max + 1⟩ = some n := (number_eq_some).mpr ⟨hstep, hfits.2 n rfl⟩
    have hparse := parseRange_text hrange hfits.1 (some n)
    refine ⟨_, ?_, fun v => mem_steps hle⟩
    unfold parseItem
    rw [hsplit]
    simp only [Option.isSome_some] at hparse
    simp only [Option.bind_eq_bind, Option.bind_some, parseStep, hnumber, Option.isSome_some, hparse]
    exact if_neg (Nat.not_lt.mpr hle)

theorem splitStep_some {item range : List Char} {step : Option (List Char)} (h : splitStep item = some (range, step)) :
    item = range ++ (step.map ('/' :: ·)).getD [] := by
  unfold splitStep at h
  have hjoin := Text.join_splitChars '/' item
  generalize Text.splitChars '/' item = parts at h hjoin
  match parts, h with
  | [whole], h =>
    cases h
    rw [List.intercalate_singleton] at hjoin
    simp [hjoin]
  | [front, back], h =>
    cases h
    rw [List.intercalate_cons_cons, List.intercalate_singleton] at hjoin
    simp [← hjoin]

theorem parseItem_some {added : List Nat} (h : parseItem text field = some added) :
    ∃ item, ItemText text item ∧ item.Fits field := by
  unfold parseItem at h
  obtain ⟨⟨range, step⟩, hsplit, h⟩ := Option.bind_eq_some_iff.mp h
  obtain ⟨every, hevery, h⟩ := Option.bind_eq_some_iff.mp h
  obtain ⟨⟨from_, to_⟩, hrange, h⟩ := Option.bind_eq_some_iff.mp h
  have hle : from_ ≤ to_ := by
    by_contra hgt
    dsimp only at h
    rw [if_pos (Nat.not_le.mp hgt)] at h
    cases h
  obtain ⟨range', htext, hfits⟩ := parseRange_some hrange hle
  have hitem := splitStep_some hsplit
  cases step with
  | none =>
    refine ⟨⟨range', none⟩, ?_, hfits, fun n hn => nomatch hn⟩
    have heq : text = range := by simpa using hitem
    exact heq ▸ .plain htext
  | some step =>
    obtain ⟨hspells, hstep⟩ := (number_eq_some).mp hevery
    refine ⟨⟨range', some every⟩, ?_, hfits, fun n hn => ?_⟩
    · have heq : text = range ++ '/' :: step := by simpa using hitem
      exact heq ▸ .stepped htext hspells
    · cases hn
      exact hstep

/-! ## Fields -/

theorem foldlM_items (hfield : field.min ≤ field.max) (h : List.Forall₂ ItemText texts items)
    (hfits : ∀ item ∈ items, item.Fits field) (values : Finset Nat) :
    ∃ result, texts.foldlM (fun values item => (parseItem item field).map fun added => values ∪ added.toFinset) values =
    some result ∧
      ∀ v, v ∈ result ↔ v ∈ values ∨ HoldsAny field items v := by
  induction h generalizing values with
  | nil => exact ⟨values, rfl, fun v => by simp [HoldsAny]⟩
  | @cons text item texts items htext _ ih =>
    obtain ⟨added, hparse, hadded⟩ := parseItem_text hfield htext (hfits item List.mem_cons_self)
    obtain ⟨result, hresult, hmem⟩ := ih (fun i hi => hfits i (List.mem_cons_of_mem _ hi)) (values ∪ added.toFinset)
    refine ⟨result, ?_, fun v => ?_⟩
    · rw [List.foldlM_cons, hparse]
      exact hresult
    · rw [hmem, Finset.mem_union, List.mem_toFinset, hadded]
      simp [HoldsAny, or_assoc]

theorem comma_not_mem (h : List.Forall₂ ItemText texts items) : ∀ text ∈ texts, ',' ∉ text := by
  induction h with
  | nil => simp
  | cons htext _ ih =>
    intro text hmem
    rcases List.mem_cons.mp hmem with rfl | hmem
    · exact htext.not_mem (by decide) (by decide) (by decide) (by decide)
    · exact ih text hmem

theorem parseField_text (hfield : field.min ≤ field.max) (h : FieldText field text items) :
    ∃ values, parseField text field = some values ∧ ∀ v, v ∈ values ↔ HoldsAny field items v := by
  obtain ⟨texts, rfl, hne, htexts, hfits⟩ := h
  obtain ⟨values, hvalues, hmem⟩ := foldlM_items hfield htexts hfits ∅
  refine ⟨values, ?_, fun v => ?_⟩
  · rw [parseField, Text.splitChars_join hne (comma_not_mem htexts)]
    exact hvalues
  · rw [hmem]
    simp

theorem items_of_foldlM {result : Finset Nat}
    (h : texts.foldlM (fun values item => (parseItem item field).map fun added => values ∪ added.toFinset) values = some result) :
    ∃ items, List.Forall₂ ItemText texts items ∧ ∀ item ∈ items, item.Fits field := by
  induction texts generalizing values with
  | nil => exact ⟨[], .nil, by simp⟩
  | cons text rest ih =>
    rw [List.foldlM_cons] at h
    obtain ⟨next, hnext, h⟩ := Option.bind_eq_some_iff.mp h
    obtain ⟨added, hadded, -⟩ := Option.map_eq_some_iff.mp hnext
    obtain ⟨item, htext, hfits⟩ := parseItem_some hadded
    obtain ⟨items, htexts, hall⟩ := ih h
    exact ⟨item :: items, .cons htext htexts, List.forall_mem_cons.mpr ⟨hfits, hall⟩⟩

theorem parseField_some (h : parseField text field = some values) : ∃ items, FieldText field text items := by
  obtain ⟨items, htexts, hfits⟩ := items_of_foldlM h
  exact ⟨items, Text.splitChars ',' text, (Text.join_splitChars ',' text).symm, Text.splitChars_ne_nil ',' text, htexts, hfits⟩

theorem FieldText.not_mem (h : FieldText field text items) : ' ' ∉ text := by
  obtain ⟨texts, rfl, -, htexts, -⟩ := h
  induction htexts with
  | nil => simp
  | @cons text item texts items htext htexts ih =>
    have hspace : ' ' ∉ text := htext.not_mem (by decide) (by decide) (by decide) (by decide)
    cases htexts with
    | nil => simpa using hspace
    | cons _ _ =>
      rw [List.intercalate_cons_cons, List.mem_append, List.mem_append, not_or, not_or]
      exact ⟨⟨hspace, by decide⟩, ih⟩

/-! ## Expressions -/

theorem splitChars_five {a b c d e : List Char} (ha : ' ' ∉ a) (hb : ' ' ∉ b) (hc : ' ' ∉ c) (hd : ' ' ∉ d) (he : ' ' ∉ e) :
    Text.splitChars ' ' ([' '].intercalate [a, b, c, d, e]) = [a, b, c, d, e] :=
  Text.splitChars_join (by simp) (by simp [ha, hb, hc, hd, he])

theorem head?_star : text.head? = some '*' ↔ ['*'] <+: text := by
  cases text with
  | nil => simp
  | cons c rest => simp [eq_comm]

/-- The schedule of an expression holds what its fields name. -/
structure Means (schedule : CronSchedule) (cron : Cron) : Prop where
  minutes : ∀ v, v ∈ schedule.minutes ↔ HoldsAny MINUTE cron.minute v
  hours : ∀ v, v ∈ schedule.hours ↔ HoldsAny HOUR cron.hour v
  daysOfMonth : ∀ v, v ∈ schedule.daysOfMonth ↔ HoldsAny DAY_OF_MONTH cron.dayOfMonth v
  months : ∀ v, v ∈ schedule.months ↔ HoldsAny MONTH cron.month v
  daysOfWeek : ∀ v, v ∈ schedule.daysOfWeek ↔ ∃ day, HoldsAny DAY_OF_WEEK cron.dayOfWeek day ∧ day % 7 = v
  eitherDay : schedule.eitherDay = true ↔ cron.anyDayOfMonth = false ∧ cron.anyDayOfWeek = false

theorem parseCron_text (h : CronText expression cron) :
    ∃ schedule, parseCron expression = some schedule ∧ Means schedule cron := by
  obtain ⟨minute, hour, dayOfMonth, month, dayOfWeek, htext, hminute, hhour, hdayOfMonth, hmonth, hdayOfWeek, hanyMonth,
      hanyWeek⟩ := h
  obtain ⟨minutes, hminutes, hmemMinutes⟩ := parseField_text (by decide) hminute
  obtain ⟨hours, hhours, hmemHours⟩ := parseField_text (by decide) hhour
  obtain ⟨days, hdays, hmemDays⟩ := parseField_text (by decide) hdayOfMonth
  obtain ⟨months, hmonths, hmemMonths⟩ := parseField_text (by decide) hmonth
  obtain ⟨weekdays, hweekdays, hmemWeekdays⟩ := parseField_text (by decide) hdayOfWeek
  have hsplit := splitChars_five hminute.not_mem hhour.not_mem hdayOfMonth.not_mem hmonth.not_mem hdayOfWeek.not_mem
  refine ⟨⟨minutes, hours, days, months, weekdays.image (· % 7), dayOfMonth.head? ≠ some '*' && dayOfWeek.head? ≠ some '*'⟩, ?_,
    ⟨hmemMinutes, hmemHours, hmemDays, hmemMonths, fun v => ?_, ?_⟩⟩
  · unfold parseCron
    rw [htext, hsplit]
    simp only [hminutes, hhours, hdays, hmonths, hweekdays]
    rfl
  · simp [hmemWeekdays]
  · rw [Bool.and_eq_true, decide_eq_true_eq, decide_eq_true_eq, ne_eq, ne_eq, head?_star, head?_star, ← hanyMonth, ← hanyWeek,
      Bool.not_eq_true, Bool.not_eq_true]

theorem parseCron_some (h : parseCron expression = some schedule) : ∃ cron, CronText expression cron := by
  unfold parseCron at h
  have hjoin := Text.join_splitChars ' ' expression.toList
  generalize Text.splitChars ' ' expression.toList = parts at h hjoin
  match parts, h with
  | [minute, hour, dayOfMonth, month, dayOfWeek], h =>
    obtain ⟨minutes, hminutes, h⟩ := Option.bind_eq_some_iff.mp h
    obtain ⟨hours, hhours, h⟩ := Option.bind_eq_some_iff.mp h
    obtain ⟨days, hdays, h⟩ := Option.bind_eq_some_iff.mp h
    obtain ⟨months, hmonths, h⟩ := Option.bind_eq_some_iff.mp h
    obtain ⟨weekdays, hweekdays, h⟩ := Option.bind_eq_some_iff.mp h
    obtain ⟨minuteItems, hminute⟩ := parseField_some hminutes
    obtain ⟨hourItems, hhour⟩ := parseField_some hhours
    obtain ⟨dayItems, hday⟩ := parseField_some hdays
    obtain ⟨monthItems, hmonth⟩ := parseField_some hmonths
    obtain ⟨weekdayItems, hweekday⟩ := parseField_some hweekdays
    exact ⟨⟨minuteItems, hourItems, dayItems, monthItems, weekdayItems, decide (['*'] <+: dayOfMonth),
      decide (['*'] <+: dayOfWeek)⟩,
      minute, hour, dayOfMonth, month, dayOfWeek, hjoin.symm, hminute, hhour, hday, hmonth, hweekday, decide_eq_true_iff,
      decide_eq_true_iff⟩

/-! ## The minutes that are due -/

theorem fold_week {day w : Nat} (hle : day ≤ 7) : day % 7 = w ↔ (if day = 7 then 0 else day) = w := by
  by_cases h : day = 7
  · rw [if_pos h, h]
  · rw [if_neg h, Nat.mod_eq_of_lt (by omega)]

theorem HoldsAny.le (hfits : ∀ item ∈ items, item.Fits field) {value : Nat} (h : HoldsAny field items value) :
    value ≤ field.max := by
  obtain ⟨item, hitem, -, hle, -⟩ := h
  refine hle.trans ?_
  obtain ⟨range, step⟩ := item
  have hrange := (hfits _ hitem).1
  cases range with
  | all => exact le_refl _
  | one n =>
    unfold Item.bounds
    dsimp only
    split
    · exact le_refl _
    · exact hrange.2
  | span a b => exact hrange.2.2

theorem CronText.dayOfWeek_fits (h : CronText expression cron) : ∀ item ∈ cron.dayOfWeek, item.Fits DAY_OF_WEEK := by
  obtain ⟨_, _, _, _, _, -, -, -, -, -, ⟨_, -, -, -, hfits⟩, -, -⟩ := h
  exact hfits

theorem isDueAt_iff (hmeans : Means schedule cron) (hweek : ∀ item ∈ cron.dayOfWeek, item.Fits DAY_OF_WEEK) (at_ : Int) :
    isDueAt schedule at_ = true ↔ cron.Due at_ := by
  have hfold : getUTCDay at_ ∈ schedule.daysOfWeek ↔
      ∃ day, HoldsAny DAY_OF_WEEK cron.dayOfWeek day ∧ (if day = 7 then 0 else day) = getUTCDay at_ := by
    rw [hmeans.daysOfWeek]
    exact exists_congr fun day => and_congr_right fun hday => fold_week (hday.le hweek)
  unfold isDueAt dayMatches Cron.Due
  rw [Bool.and_eq_true, Bool.and_eq_true, decide_eq_true_eq, decide_eq_true_eq, hmeans.minutes, hmeans.hours, and_assoc]
  refine and_congr_right fun _ => and_congr_right fun _ => ?_
  by_cases hmonth : getUTCMonth at_ + 1 ∈ schedule.months
  · rw [if_neg (not_not_intro hmonth), ← hmeans.months]
    by_cases heither : schedule.eitherDay = true
    · have hanys := hmeans.eitherDay.mp heither
      simp [hmonth, heither, hanys, hmeans.daysOfMonth, hfold]
    · have hanys : ¬(cron.anyDayOfMonth = false ∧ cron.anyDayOfWeek = false) := fun hanys => heither (hmeans.eitherDay.mpr hanys)
      rw [if_neg heither, if_neg hanys]
      simp [hmonth, hmeans.daysOfMonth, hfold]
  · rw [if_pos hmonth, ← hmeans.months]
    simp [hmonth]

/-! ## The search -/

theorem foldl_push (limit count : Int) (times due : List Int) :
    times.foldl (push limit count) due = due ++ (times.filter (· ≤ limit)).take (count.toNat - due.length) := by
  induction times generalizing due with
  | nil => simp
  | cons time rest ih =>
    rw [List.foldl_cons, ih, push, List.filter_cons]
    by_cases hlimit : time ≤ limit
    · rw [if_pos (decide_eq_true hlimit)]
      by_cases hcount : (due.length : Int) < count
      · have hroom : count.toNat - due.length = (count.toNat - (due ++ [time]).length) + 1 := by
          rw [List.length_append, List.length_singleton]
          omega
        rw [if_pos ⟨hlimit, hcount⟩, hroom, List.take_succ_cons, List.append_assoc]
        rfl
      · have hfull : count.toNat - due.length = 0 := by omega
        rw [if_neg fun h => hcount h.2, hfull, List.take_zero, List.take_zero]
    · rw [if_neg fun h => hlimit h.1, if_neg fun h => hlimit (of_decide_eq_true h)]

/-- The times of one day, latest first. -/
def timesOf (schedule : CronSchedule) (day : Int) : List Int :=
  (descending schedule.hours).flatMap fun hour => (descending schedule.minutes).map (timeOf day hour)

theorem visitDay_eq (schedule : CronSchedule) (limit count day : Int) (due : List Int) :
    visitDay schedule limit count day due = due ++ ((timesOf schedule day).filter (· ≤ limit)).take
    (count.toNat - due.length) := by
  rw [← foldl_push, timesOf, List.foldl_flatMap]
  unfold visitDay
  congr 1
  funext due hour
  rw [List.foldl_map]

/-- What the search can find on one day. -/
def found (schedule : CronSchedule) (limit day : Int) : List Int :=
  if dayMatches schedule day then (timesOf schedule day).filter (· ≤ limit) else []

/-- What it can find in a number of days, the first of them so many days back. -/
def foundFrom (schedule : CronSchedule) (today limit : Int) : Nat → Nat → List Int
  | 0, _ => []
  | left + 1, back => found schedule limit (today - back * DAY_MS) ++ foundFrom schedule today limit left (back + 1)

theorem searchDays_eq (schedule : CronSchedule) (today limit count : Int) (left back : Nat) (due : List Int) :
    searchDays schedule today limit count left back due =
      due ++ (foundFrom schedule today limit left back).take (count.toNat - due.length) := by
  induction left generalizing back due with
  | zero => simp [searchDays, foundFrom]
  | succ left ih =>
    rw [searchDays, foundFrom]
    by_cases hcount : (due.length : Int) < count
    · rw [if_pos hcount]
      dsimp only
      have hday : (if dayMatches schedule (today - back * DAY_MS) then visitDay schedule limit count (today - back * DAY_MS) due
          else due) =
          due ++ (found schedule limit (today - back * DAY_MS)).take (count.toNat - due.length) := by
        unfold found
        split
        · exact visitDay_eq schedule limit count _ due
        · simp
      rw [hday, ih, List.append_assoc, List.length_append, List.take_append, List.length_take]
      congr 2
      rw [← Nat.sub_sub]
      congr 1
      omega
    · have hfull : count.toNat - due.length = 0 := by omega
      rw [if_neg hcount, hfull, List.take_zero, List.append_nil]

/-! ## What it finds -/

theorem timeOf_parts {day : Int} {hour minute : Nat} (hhour : hour < 24) (hminute : minute < 60) (d : Int)
    (hday : day = d * DAY_MS) :
    utcDay (timeOf day hour minute) = d ∧ getUTCHours (timeOf day hour minute) = hour ∧
      getUTCMinutes (timeOf day hour minute) = minute ∧ MINUTE_MS ∣ timeOf day hour minute := by
  unfold utcDay getUTCHours getUTCMinutes timeOf
  subst hday
  unfold DAY_MS MINUTE_MS
  refine ⟨by omega, by omega, by omega, by omega⟩

/-- A minute is the time of its own parts. -/
theorem timeOf_self {m : Int} (hminute : MINUTE_MS ∣ m) :
    timeOf (utcDay m * DAY_MS) (getUTCHours m) (getUTCMinutes m) = m := by
  unfold utcDay getUTCHours getUTCMinutes timeOf
  unfold DAY_MS MINUTE_MS at *
  omega

/-- The hours and the minutes are a clock's. -/
def OnClock (schedule : CronSchedule) : Prop := (∀ h ∈ schedule.hours, h < 24) ∧ ∀ m ∈ schedule.minutes, m < 60

theorem mem_descending {v : Nat} : v ∈ descending values ↔ v ∈ values := Finset.mem_sort _

theorem dayMatches_of_day {x y : Int} (h : utcDay x = utcDay y) : dayMatches schedule x = dayMatches schedule y := by
  unfold dayMatches getUTCMonth getUTCDate getUTCDay
  rw [h]

theorem utcDay_start (d : Int) : utcDay (d * DAY_MS) = d := by
  unfold utcDay DAY_MS MINUTE_MS
  omega

theorem mem_found (hclock : OnClock schedule) {limit d m : Int} :
    m ∈ found schedule limit (d * DAY_MS) ↔ MINUTE_MS ∣ m ∧ m ≤ limit ∧ utcDay m = d ∧ isDueAt schedule m = true := by
  unfold found isDueAt
  rw [Bool.and_eq_true, Bool.and_eq_true, decide_eq_true_eq, decide_eq_true_eq]
  constructor
  · intro hm
    split at hm
    · next hday =>
      obtain ⟨hm, hlimit⟩ := List.mem_filter.mp hm
      obtain ⟨hour, hhour, hm⟩ := List.mem_flatMap.mp hm
      obtain ⟨minute, hminute, rfl⟩ := List.mem_map.mp hm
      rw [mem_descending] at hhour hminute
      obtain ⟨hd, hh, hmin, hdvd⟩ := timeOf_parts (hclock.1 hour hhour) (hclock.2 minute hminute) d rfl
      have hsame : dayMatches schedule (timeOf (d * DAY_MS) hour minute) = dayMatches schedule (d * DAY_MS) :=
        dayMatches_of_day (hd.trans (utcDay_start d).symm)
      refine ⟨hdvd, of_decide_eq_true hlimit, hd, ⟨?_, ?_⟩, hsame.trans hday⟩
      · rw [hmin]
        exact hminute
      · rw [hh]
        exact hhour
    · cases hm
  · intro ⟨hdvd, hlimit, hd, ⟨hminute, hhour⟩, hday⟩
    have hsame : dayMatches schedule (d * DAY_MS) = true := (dayMatches_of_day ((utcDay_start d).trans hd.symm)).trans hday
    rw [if_pos hsame, List.mem_filter]
    refine ⟨List.mem_flatMap.mpr ⟨getUTCHours m, (mem_descending).mpr hhour,
      List.mem_map.mpr ⟨getUTCMinutes m, (mem_descending).mpr hminute, ?_⟩⟩, decide_eq_true hlimit⟩
    rw [← hd]
    exact timeOf_self hdvd

theorem mem_foundFrom (hclock : OnClock schedule) {d limit m : Int} {left back : Nat} :
    m ∈ foundFrom schedule (d * DAY_MS) limit left back ↔
      MINUTE_MS ∣ m ∧ m ≤ limit ∧ (d - back - left < utcDay m ∧ utcDay m ≤ d - back) ∧ isDueAt schedule m = true := by
  induction left generalizing back with
  | zero =>
    refine ⟨fun h => absurd h List.not_mem_nil, fun ⟨_, _, hday, _⟩ => ?_⟩
    omega
  | succ left ih =>
    have hstart : d * DAY_MS - back * DAY_MS = (d - back) * DAY_MS := by rw [Int.sub_mul]
    rw [foundFrom, hstart, List.mem_append, mem_found hclock, ih]
    push_cast
    constructor
    · rintro (⟨hdvd, hlimit, hday, hdue⟩ | ⟨hdvd, hlimit, hday, hdue⟩)
      · exact ⟨hdvd, hlimit, by omega, hdue⟩
      · exact ⟨hdvd, hlimit, by omega, hdue⟩
    · intro ⟨hdvd, hlimit, hday, hdue⟩
      by_cases hfirst : utcDay m = d - back
      · exact .inl ⟨hdvd, hlimit, hfirst, hdue⟩
      · exact .inr ⟨hdvd, hlimit, by omega, hdue⟩

theorem descending_pairwise (values : Finset Nat) : (descending values).Pairwise (· > ·) :=
  (Finset.sortedGT_sort values).pairwise

theorem timesOf_pairwise (hclock : OnClock schedule) (day : Int) : (timesOf schedule day).Pairwise (· > ·) := by
  unfold timesOf
  rw [List.pairwise_flatMap]
  refine ⟨fun hour _ => ?_, ?_⟩
  · rw [List.pairwise_map]
    refine (descending_pairwise schedule.minutes).imp fun {a b} hgt => ?_
    unfold timeOf MINUTE_MS
    omega
  · refine (List.Pairwise.and_mem.mp (descending_pairwise schedule.hours)).imp fun {a b} ⟨ha, hb, hgt⟩ x hx y hy => ?_
    obtain ⟨minute, hminute, rfl⟩ := List.mem_map.mp hx
    obtain ⟨minute', hminute', rfl⟩ := List.mem_map.mp hy
    have hlt' := hclock.2 minute' ((mem_descending).mp hminute')
    unfold timeOf MINUTE_MS
    omega

theorem foundFrom_pairwise (hclock : OnClock schedule) (d limit : Int) (left back : Nat) :
    (foundFrom schedule (d * DAY_MS) limit left back).Pairwise (· > ·) := by
  induction left generalizing back with
  | zero => exact List.Pairwise.nil
  | succ left ih =>
    have hstart : d * DAY_MS - back * DAY_MS = (d - back) * DAY_MS := by rw [Int.sub_mul]
    rw [foundFrom, hstart, List.pairwise_append]
    refine ⟨?_, ih (back + 1), fun x hx y hy => ?_⟩
    · unfold found
      split
      · exact (timesOf_pairwise hclock _).filter _
      · exact List.Pairwise.nil
    · obtain ⟨-, -, hxday, -⟩ := (mem_found hclock).mp hx
      obtain ⟨-, -, ⟨-, hyday⟩, -⟩ := (mem_foundFrom hclock).mp hy
      unfold utcDay DAY_MS MINUTE_MS at hxday hyday
      push_cast at hyday
      omega

theorem today_eq {at_ : Int} (hyear : 1000 ≤ getUTCFullYear at_) :
    dateUTC (getUTCFullYear at_) (getUTCMonth at_) (getUTCDate at_) = utcDay at_ * DAY_MS := by
  have hcentury : ¬(0 ≤ getUTCFullYear at_ ∧ getUTCFullYear at_ ≤ 99) := by omega
  rw [dateUTC, if_neg hcentury]
  unfold getUTCFullYear getUTCMonth getUTCDate
  rw [Calendar.dayOf_fields]

theorem onClock (h : CronText expression cron) (hmeans : Means schedule cron) : OnClock schedule := by
  obtain ⟨_, _, _, _, _, -, ⟨_, -, -, -, hminute⟩, ⟨_, -, -, -, hhour⟩, -⟩ := h
  refine ⟨fun v hv => ?_, fun v hv => ?_⟩
  · exact Nat.lt_succ_of_le (((hmeans.hours v).mp hv).le hhour)
  · exact Nat.lt_succ_of_le (((hmeans.minutes v).mp hv).le hminute)

/-- `parseCron` reads the expressions of the grammar and no other; `isDueAt` holds in the minutes
    they name; `previousDue` lists the first `count` of all due minutes at or before the instant
    in the days searched, newest first. -/
theorem cron_readers_agree :
    (∀ expression, parseCron expression = none ↔ ¬∃ cron, CronText expression cron) ∧
    (∀ expression cron schedule, CronText expression cron → parseCron expression = some schedule →
      ∀ at_, isDueAt schedule at_ = true ↔ cron.Due at_) ∧
    ∀ expression schedule, parseCron expression = some schedule →
      ∀ at_ count, 1000 ≤ getUTCFullYear at_ → getUTCFullYear at_ ≤ 9999 →
        ∃ due : List Int, due.Pairwise (· > ·) ∧
          (∀ m, m ∈ due ↔ MINUTE_MS ∣ m ∧ m ≤ at_ ∧ utcDay at_ - 5 * 366 ≤ utcDay m ∧ isDueAt schedule m = true) ∧
          previousDue schedule at_ count = due.take count.toNat := by
  refine ⟨fun expression => ?_, fun expression cron schedule htext hparse at_ => ?_,
    fun expression schedule hparse at_ count hyear _ => ?_⟩
  · constructor
    · intro hnone ⟨cron, htext⟩
      obtain ⟨schedule, hsome, -⟩ := parseCron_text htext
      rw [hnone] at hsome
      cases hsome
    · intro hnot
      cases hparse : parseCron expression with
      | none => rfl
      | some schedule => exact absurd (parseCron_some hparse) hnot
  · obtain ⟨schedule', hparse', hmeans⟩ := parseCron_text htext
    rw [hparse] at hparse'
    cases hparse'
    exact isDueAt_iff hmeans htext.dayOfWeek_fits at_
  · obtain ⟨cron, htext⟩ := parseCron_some hparse
    obtain ⟨schedule', hparse', hmeans⟩ := parseCron_text htext
    rw [hparse] at hparse'
    cases hparse'
    have hclock := onClock htext hmeans
    refine ⟨foundFrom schedule (utcDay at_ * DAY_MS) (at_ / MINUTE_MS * MINUTE_MS) (SEARCH_DAYS + 1) 0,
      foundFrom_pairwise hclock _ _ _ _, fun m => ?_, ?_⟩
    · rw [mem_foundFrom hclock]
      have hlimit : MINUTE_MS ∣ m → (m ≤ at_ / MINUTE_MS * MINUTE_MS ↔ m ≤ at_) := by
        unfold MINUTE_MS
        omega
      have hdays : m ≤ at_ → ((utcDay at_ - (0 : Nat) - (SEARCH_DAYS + 1 : Nat) < utcDay m ∧ utcDay m ≤ utcDay at_ - (0 : Nat)) ↔
          utcDay at_ - 5 * 366 ≤ utcDay m) := by
        unfold utcDay DAY_MS MINUTE_MS SEARCH_DAYS
        omega
      constructor
      · intro ⟨hdvd, hle, hday, hdue⟩
        have hle' := (hlimit hdvd).mp hle
        exact ⟨hdvd, hle', (hdays hle').mp hday, hdue⟩
      · intro ⟨hdvd, hle, hday, hdue⟩
        exact ⟨hdvd, (hlimit hdvd).mpr hle, (hdays hle).mpr hday, hdue⟩
    · rw [previousDue, today_eq hyear]
      exact searchDays_eq schedule _ _ count _ 0 []

end Fabrika.App.Schedule
