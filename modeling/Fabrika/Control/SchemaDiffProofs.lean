/-
  Fabrika.Control.SchemaDiffProofs — a schema change that shows no widening line admits no new
  value, and what holds of an output, which may lose required fields.

  `kept` is the old shape as far as the side keeps it: all of it for an input, without the lost
  fields for an output. `coreChanges_sound` is the induction over two shapes: where no line
  widens, what the new shape admits the kept one does.
-/

import Fabrika.App.SchemaValuesProofs
import Fabrika.Control.DiffProofs
import Fabrika.Control.SchemaDiff

namespace Fabrika.Control

open Fabrika.Lib
open Fabrika.App.Params (SchemaShape StringShape NumberShape Scalar Fields isInherited)
open Fabrika.App.SchemaValues

/-! ## What a side keeps and what a path leads to -/

mutual
/-- The old shape as far as the side keeps it: an output may lose a field, at any depth. -/
def kept (side : SchemaSide) : SchemaShape → SchemaShape → SchemaShape
  | .optional inner, after => .optional (kept side inner after)
  | .nullable inner, after => .nullable (kept side inner after)
  | .object fields, .object others => .object (keptFields side fields others)
  | .array items minItems maxItems, .array others _ _ => .array (kept side items (unwrapped others).core) minItems maxItems
  | before, _ => before
def keptFields (side : SchemaSide) : Fields → Fields → Fields
  | [], _ => []
  | (name, before) :: rest, others =>
    match others.lookup name with
    | some after => (name, kept side before (unwrapped after).core) :: keptFields side rest others
    | none => if side = .input then (name, before) :: keptFields side rest others else keptFields side rest others
end

/-- The old shape of an output without the fields the new one lost. -/
def withoutLost (before after : SchemaShape) : SchemaShape := kept .output before (unwrapped after).core

inductive PathStep
  | field (name : Units)
  | items
  | position (index : Nat)
  | rest
  | entry
  | option (index : Nat)

/-- A value at the path in a value of the first shape is one of the second. -/
inductive Carries : SchemaShape → List PathStep → SchemaShape → Prop
  | here (shape : SchemaShape) : Carries shape [] shape
  | field {shape inner target : SchemaShape} {fields : Fields} {name : Units} {path : List PathStep}
    (hcore : (unwrapped shape).core = .object fields)
    (hfield : (name, inner) ∈ fields) (h : Carries inner path target) : Carries shape (.field name :: path) target
  | items {shape items target : SchemaShape} {minItems maxItems : Option Nat} {path : List PathStep}
    (hcore : (unwrapped shape).core = .array items minItems maxItems) (h : Carries items path target) :
    Carries shape (.items :: path) target
  | position {shape inner target : SchemaShape} {items : List SchemaShape} {rest : Option SchemaShape} {index : Nat}
    {path : List PathStep}
    (hcore : (unwrapped shape).core = .tuple items rest) (hitem : items[index]? = some inner) (h : Carries inner path target) :
    Carries shape (.position index :: path) target
  | rest {shape inner target : SchemaShape} {items : List SchemaShape} {path : List PathStep}
    (hcore : (unwrapped shape).core = .tuple items (some inner)) (h : Carries inner path target) :
    Carries shape (.rest :: path) target
  | entry {shape key value target : SchemaShape} {path : List PathStep} (hcore : (unwrapped shape).core = .record key value)
    (h : Carries value path target) : Carries shape (.entry :: path) target
  | option {shape inner target : SchemaShape} {options : List SchemaShape} {index : Nat} {path : List PathStep}
    (hcore : (unwrapped shape).core = .union options) (hoption : options[index]? = some inner) (h : Carries inner path target) :
    Carries shape (.option index :: path) target

variable {checks : Checks} {side : SchemaSide}

/-! ## Wrappers -/

theorem admits_unwrapped (s : SchemaShape) (value : Wire) :
    admits checks s value
      = (((unwrapped s).optional && value.isAbsent) || ((unwrapped s).nullable && isNull value) ||
        admits checks (unwrapped s).core value) := by
  induction s using inductionOn with
  | optional inner ih =>
    rw [admits, ih, unwrapped]
    cases value.isAbsent <;> simp
  | nullable inner ih =>
    rw [admits, ih, unwrapped]
    cases isNull value <;> simp
  | _ => simp [unwrapped]

theorem core_not_wrapper (s : SchemaShape) : unwrapped (unwrapped s).core = ⟨false, false, (unwrapped s).core⟩ := by
  induction s using inductionOn with
  | optional inner ih => exact ih
  | nullable inner ih => exact ih
  | _ => rfl

theorem admits_kept_none (before after : SchemaShape) (h : (unwrapped before).optional = true) :
    admits checks (kept side before after) .absent = true := by
  induction before using inductionOn with
  | optional inner ih => rfl
  | nullable inner ih =>
    rw [kept, admits, Bool.or_eq_true]
    exact .inr (ih h)
  | _ => cases h

variable {value : Wire} {after before s : SchemaShape} {x : Double} {text name : Units} {fields others : Fields}
variable {lines : List AccessEffect} {path : List PathStep}

theorem admits_kept_null (before after : SchemaShape) (hvalue : isNull value = true) (h : (unwrapped before).nullable = true) :
    admits checks (kept side before after) value = true := by
  induction before using inductionOn with
  | optional inner ih =>
    rw [kept, admits, Bool.or_eq_true]
    exact .inr (ih h)
  | nullable inner ih =>
    rw [kept, admits, Bool.or_eq_true]
    exact .inl hvalue
  | _ => cases h

theorem widens_wrapperChanges {before after : Unwrapped} :
    AccessEffect.widens ∉ wrapperChanges before after
      ↔ (after.optional = true → before.optional = true) ∧ (after.nullable = true → before.nullable = true) := by
  rw [wrapperChanges, List.mem_append, not_or, widens_flagChange, widens_flagChange]

/-- Where no wrapper's line widens and the kept shape admits what the new core does, it admits
    what the new shape does. -/
theorem admits_kept_of_core (hwrappers : AccessEffect.widens ∉ wrapperChanges (unwrapped before) (unwrapped after))
    (hcore : ∀ value, admits checks (unwrapped after).core value = true →
      admits checks (kept side before (unwrapped after).core) value = true)
    (value : Wire) (h : admits checks after value = true) :
    admits checks (kept side before (unwrapped after).core) value = true := by
  obtain ⟨hoptional, hnullable⟩ := (widens_wrapperChanges).mp hwrappers
  rw [admits_unwrapped, Bool.or_eq_true, Bool.or_eq_true, Bool.and_eq_true, Bool.and_eq_true] at h
  obtain (⟨ho, hnone⟩ | ⟨hn, hnull⟩) | hvalue := h
  · rw [isAbsent_iff.mp hnone]
    exact admits_kept_none before _ (hoptional ho)
  · exact admits_kept_null before _ hnull (hnullable hn)
  · exact hcore value hvalue

/-! ## Limits, bounds and constraints -/

@[simp] theorem widens_flagChange_reversed {before after : Bool} :
    AccessEffect.widens ∉ flagChange before after .narrows .widens ↔ (before = true → after = true) := by
  cases before <;> cases after <;> simp [flagChange]

theorem lowerLimit_kept {before after : Option Nat} (h : AccessEffect.widens ∉ lowerLimitChange before after) {n : Nat}
    (hn : after.all (· ≤ n) = true) : before.all (· ≤ n) = true := by
  unfold lowerLimitChange at h
  match before, after with
  | none, _ => rfl
  | some b, none => simp at h
  | some b, some a =>
    by_cases hba : b = a
    · rw [hba]
      exact hn
    · by_cases hlt : b < a
      · simp only [Option.all_some, decide_eq_true_eq] at hn ⊢
        omega
      · simp [hba, hlt] at h

theorem limit_kept {before after : Option Nat} (h : AccessEffect.widens ∉ limitChange before after) {n : Nat}
    (hn : after.all (n ≤ ·) = true) :
    before.all (n ≤ ·) = true := by
  cases before with
  | none => rfl
  | some b =>
    obtain ⟨a, rfl, hab⟩ := widens_limitChange.mp h b rfl
    simp only [Option.all_some, decide_eq_true_eq] at hn ⊢
    omega

theorem constraint_kept {α : Type} [DecidableEq α] {before after : Option α}
    (h : AccessEffect.widens ∉ constraintChange before after)
    (test : α → Bool) (ht : after.all test = true) : before.all test = true := by
  unfold constraintChange at h
  by_cases heq : before = after
  · rw [heq]
    exact ht
  · by_cases hnone : before = none
    · rw [hnone]
      rfl
    · simp [heq, hnone] at h

/-- What a bound admits: `direction` is 1 for a minimum and -1 for a maximum. -/
def Bound.admits (bound : Bound) (direction x : ℚ) : Prop :=
  ∀ low, bound.value = some low → if bound.exclusive then 0 < (x - low) * direction else 0 ≤ (x - low) * direction

theorem bound_kept {before after : Bound} {direction x : ℚ} (h : AccessEffect.widens ∉ boundChange before after direction)
    (hx : after.admits direction x) : before.admits direction x := by
  unfold boundChange at h
  by_cases heq : before = after
  · rw [heq]
    exact hx
  · have htight : tighter before after direction = true := by
      by_contra hloose
      simp [heq, hloose] at h
    intro b hb
    unfold tighter at htight
    rw [hb] at htight
    cases ha : after.value with
    | none => simp [ha] at htight
    | some a =>
      simp only [ha, Bool.or_eq_true, Bool.and_eq_true, decide_eq_true_eq] at htight
      have hxa := hx a ha
      have hle : 0 ≤ (x - a) * direction := by
        split at hxa
        · exact hxa.le
        · exact hxa
      obtain hlt | ⟨rfl, hexclusive⟩ := htight
      · have hpos : 0 < (x - b) * direction := by nlinarith
        split
        · exact hpos
        · exact hpos.le
      · rw [if_pos hexclusive] at hxa
        split
        · exact hxa
        · exact hxa.le

theorem minimum_admits {shape : NumberShape} :
    shape.min.all (above shape.exclusiveMin · x) = true ↔ (minimum shape).admits 1 x.value := by
  unfold Bound.admits minimum above
  cases shape.min with
  | none => simp
  | some low => cases shape.exclusiveMin <;> simp

theorem maximum_admits {shape : NumberShape} :
    shape.max.all (above shape.exclusiveMax x ·) = true ↔ (maximum shape).admits (-1) x.value := by
  unfold Bound.admits maximum above
  cases shape.max with
  | none => simp
  | some high => cases shape.exclusiveMax <;> simp

theorem step_kept {before after : Option Double} (h : AccessEffect.widens ∉ constraintChange (before.map Double.value)
      (after.map Double.value))
    (test : Double → Bool) (ht : after.all test = true) : before.all test = true := by
  have hinj : Function.Injective (Option.map Double.value) := Option.map_injective fun _ _ => Double.ext
  unfold constraintChange at h
  by_cases heq : before.map Double.value = after.map Double.value
  · rw [hinj heq]
    exact ht
  · cases before with
    | none => rfl
    | some step =>
      rw [if_neg heq, if_neg (by simp)] at h
      exact absurd List.mem_cons_self h

theorem string_kept {before after : StringShape} (h : AccessEffect.widens ∉ stringChanges before after)
    (ht : admitsString checks after text = true) : admitsString checks before text = true := by
  simp only [stringChanges, List.mem_append, not_or] at h
  obtain ⟨⟨⟨⟨⟨⟨hformat, hmin⟩, hmax⟩, hpattern⟩, hstarts⟩, hends⟩, hincludes⟩ := h
  simp only [admitsString, Bool.and_eq_true] at ht ⊢
  obtain ⟨⟨⟨⟨⟨⟨tformat, tmin⟩, tmax⟩, tpattern⟩, tstarts⟩, tends⟩, tincludes⟩ := ht
  exact ⟨⟨⟨⟨⟨⟨constraint_kept hformat _ tformat, lowerLimit_kept hmin tmin⟩, limit_kept hmax tmax⟩,
    constraint_kept hpattern _ tpattern⟩,
    constraint_kept hstarts _ tstarts⟩, constraint_kept hends _ tends⟩, constraint_kept hincludes _ tincludes⟩

theorem number_kept {before after : NumberShape} (h : AccessEffect.widens ∉ numberChanges before after)
    (hx : admitsNumber checks after x = true) : admitsNumber checks before x = true := by
  simp only [numberChanges, List.mem_append, not_or, widens_flagChange_reversed] at h
  obtain ⟨⟨⟨hint, hmin⟩, hmax⟩, hstep⟩ := h
  simp only [admitsNumber, Bool.and_eq_true, minimum_admits, maximum_admits] at hx ⊢
  obtain ⟨⟨⟨xint, xmin⟩, xmax⟩, xstep⟩ := hx
  refine ⟨⟨⟨?_, bound_kept hmin xmin⟩, bound_kept hmax xmax⟩, step_kept hstep _ xstep⟩
  cases hbefore : before.int with
  | false => rfl
  | true =>
    rw [hint hbefore] at xint
    exact xint

/-! ## Listed values -/

theorem mem_unionTexts {a b : List Units} : text ∈ unionTexts a b ↔ text ∈ a ∨ text ∈ b := by
  rw [unionTexts, (sortOn_perm _ _).mem_iff, List.mem_eraseDups, List.mem_append]

theorem values_kept {before after : List Units} (h : AccessEffect.widens ∉ valueSetChanges before after) (ht : text ∈ after) :
    text ∈ before := by
  by_contra hnew
  refine h (List.mem_flatMap.mpr ⟨text, (mem_unionTexts).mpr (.inr ht), ?_⟩)
  simp [hnew]

/-- A scalar's text tells the scalar. -/
theorem scalarText_inj {a b : Scalar} (h : Json.canonicalText (scalarJson a) = Json.canonicalText (scalarJson b)) : a = b :=
  scalarJson_inj (Json.canonicalText_eq_iff.mp h)

theorem admits_finite {values : List Units} (hs : finiteValues s = some values) (value : Wire) :
    admits checks s value = true ↔ ∃ scalar, isScalar scalar value = true ∧ Json.canonicalText (scalarJson scalar) ∈ values := by
  cases s with
  | literal literal =>
    cases hs
    rw [admits]
    constructor
    · intro h
      exact ⟨literal, h, List.mem_singleton.mpr rfl⟩
    · intro h
      obtain ⟨scalar, h, htext⟩ := h
      rwa [← scalarText_inj (List.mem_singleton.mp htext)]
  | enum texts =>
    cases hs
    rw [admits, onText_iff]
    constructor
    · intro h
      obtain ⟨text, hvalue, hmem⟩ := h
      refine ⟨.text text, ?_, List.mem_map_of_mem (List.contains_iff_mem.mp hmem)⟩
      simp [hvalue, isScalar]
    · intro h
      obtain ⟨scalar, h, htext⟩ := h
      obtain ⟨text, hmem, heq⟩ := List.mem_map.mp htext
      rw [← scalarText_inj heq] at h
      refine ⟨text, ?_, List.contains_iff_mem.mpr hmem⟩
      unfold isScalar at h
      split at h <;> simp_all
  | _ => cases hs

/-! ## Fields -/

/-- What the side keeps of one field. -/
def keptField (side : SchemaSide) (others : Fields) (field : Units × SchemaShape) : Option (Units × SchemaShape) :=
  match others.lookup field.1 with
  | some after => some (field.1, kept side field.2 (unwrapped after).core)
  | none => if side = .input then some field else none

theorem keptFields_eq (fields others : Fields) : keptFields side fields others = fields.filterMap (keptField side others) := by
  induction fields with
  | nil => rfl
  | cons field rest ih =>
    obtain ⟨name, before⟩ := field
    rw [keptFields, List.filterMap_cons, keptField]
    cases others.lookup name with
    | some after => simp only [ih]
    | none => cases side <;> simp [ih]

theorem comparedFields_lookup (fields others : Fields) (name : Units) :
    (comparedFields side fields others).lookup name
      = (fields.lookup name).map fun before => fieldLines side name before others (coreChanges side before) := by
  induction fields with
  | nil => rfl
  | cons field rest ih =>
    obtain ⟨key, before⟩ := field
    rw [comparedFields, List.lookup_cons, List.lookup_cons, ih]
    by_cases h : name = key
    · subst h
      simp
    · simp [beq_eq_false_iff_ne.mpr h]

/-- A field that is kept at its name. -/
theorem name_kept (hfield : name ∈ fields.map Prod.fst) (hother : name ∈ others.map Prod.fst) :
    name ∈ (keptFields side fields others).map Prod.fst := by
  obtain ⟨field, hmem, rfl⟩ := List.mem_map.mp hfield
  obtain ⟨after, hafter⟩ := Option.isSome_iff_exists.mp (lookup_of_mem_names hother)
  rw [keptFields_eq]
  refine List.mem_map.mpr ⟨(field.1, kept side field.2 (unwrapped after).core), List.mem_filterMap.mpr ⟨field, hmem, ?_⟩, rfl⟩
  rw [keptField, hafter]

/-! ## What is kept -/

theorem kept_input (s : SchemaShape) : ∀ after, kept .input s after = s := by
  induction s using inductionOn with
  | optional inner ih =>
    intro after
    rw [kept, ih]
  | nullable inner ih =>
    intro after
    rw [kept, ih]
  | array items minItems maxItems ih =>
    intro after
    cases after with
    | array others minOthers maxOthers => rw [kept, ih]
    | _ => rfl
  | object fields ih =>
    intro after
    cases after with
    | object others =>
      rw [kept, keptFields_eq]
      congr 1
      refine (List.filterMap_congr fun field hfield => ?_).trans (List.filterMap_some)
      rw [keptField]
      cases others.lookup field.1 with
      | some other => simp only [ih field hfield]
      | none => simp
    | _ => rfl
  | _ =>
    intro after
    rfl

/-- What a value that is neither absent nor null needs. -/
theorem admits_core (habsent : value.isAbsent = false) (hnull : isNull value = false) (h : admits checks s value = true) :
    admits checks (unwrapped s).core value = true := by
  rw [admits_unwrapped, hnull, habsent] at h
  simpa using h

theorem object_plain {listed : List Units} {get : Units → Wire} (h : objectOf value = some (listed, get)) :
    value.isAbsent = false ∧ isNull value = false := by
  unfold objectOf at h
  split at h
  · exact ⟨rfl, rfl⟩
  · exact ⟨rfl, rfl⟩
  · cases h

/-- A value of both shapes is one of what is kept: it has no field that is lost. -/
theorem admits_kept_of_both (s : SchemaShape) : ∀ t value, admits checks s value = true → admits checks t value = true →
    admits checks (kept side s (unwrapped t).core) value = true := by
  induction s using inductionOn with
  | optional inner ih =>
    intro t value hs ht
    rw [admits, Bool.or_eq_true] at hs
    rw [kept, admits, Bool.or_eq_true]
    exact hs.imp id fun h => ih t value h ht
  | nullable inner ih =>
    intro t value hs ht
    rw [admits, Bool.or_eq_true] at hs
    rw [kept, admits, Bool.or_eq_true]
    exact hs.imp id fun h => ih t value h ht
  | array items minItems maxItems ih =>
    intro t value hs ht
    obtain ⟨xs, rfl, hmin, hmax, hitems⟩ := admits_array_iff.mp hs
    have ht := admits_core rfl rfl ht
    cases hcore : (unwrapped t).core with
    | array others minOthers maxOthers =>
      rw [hcore] at ht
      obtain ⟨_, hxs, -, -, hothers⟩ := admits_array_iff.mp ht
      cases hxs
      exact admits_array_iff.mpr ⟨xs, rfl, hmin, hmax, fun x hx => ih others _ (hitems x hx) (hothers x hx)⟩
    | _ => exact hs
  | object fields ih =>
    intro t value hs ht
    obtain ⟨listed, get, hobject, hnames, hfields⟩ := admits_object_iff.mp hs
    have ht := admits_core (object_plain hobject).1 (object_plain hobject).2 ht
    cases hcore : (unwrapped t).core with
    | object others =>
      rw [hcore] at ht
      obtain ⟨_, _, hsame, hothernames, hothers⟩ := admits_object_iff.mp ht
      rw [hobject] at hsame
      cases hsame
      refine admits_object_iff.mpr ⟨listed, get, hobject, fun name hname =>
        name_kept (hnames name hname) (hothernames name hname), ?_⟩
      intro field hfield
      rw [keptFields_eq] at hfield
      obtain ⟨before, hbefore, hkept⟩ := List.mem_filterMap.mp hfield
      unfold keptField at hkept
      split at hkept
      · next after hafter =>
        cases hkept
        exact ih before hbefore after _ (hfields before hbefore) (hothers _ (Json.mem_of_lookup_eq_some hafter))
      · split at hkept
        · cases hkept
          exact hfields field hbefore
        · cases hkept
    | _ => exact hs
  | _ =>
    intro t value hs ht
    exact hs

/-! ## Cores -/

theorem flat_kept (h : AccessEffect.widens ∉ flatChanges before after) (hv : admits checks after value = true) :
    admits checks before value = true := by
  unfold flatChanges at h
  split at h
  · next old new hold hnew =>
    obtain ⟨scalar, hscalar, htext⟩ := (admits_finite hnew value).mp hv
    exact (admits_finite hold value).mpr ⟨scalar, hscalar, values_kept h htext⟩
  · split at h
    · next old new =>
      rw [admits, onText_iff] at hv ⊢
      obtain ⟨text, hvalue, htext⟩ := hv
      exact ⟨text, hvalue, string_kept h htext⟩
    · next old new =>
      rw [admits, onNumber_iff] at hv ⊢
      obtain ⟨x, hvalue, hx⟩ := hv
      exact ⟨x, hvalue, number_kept h hx⟩
    · rw [widens_valueChange] at h
      rw [(same_of_text h).value]
      exact hv

/-- The lines of two shapes of which none widens: the texts are one, or no wrapper's line and no
    line of the cores widens. -/
theorem withWrappers_cases {coreLines : Answer (List AccessEffect)} (h : withWrappers before after coreLines = .ok lines)
    (hno : AccessEffect.widens ∉ lines) :
    canonicalJson before = canonicalJson after ∨ AccessEffect.widens ∉ wrapperChanges (unwrapped before) (unwrapped after)
      ∧ ∃ changes, coreLines = .ok changes ∧ AccessEffect.widens ∉ changes := by
  unfold withWrappers at h
  split at h
  · next heq => exact .inl heq
  · obtain ⟨changes, hchanges, h⟩ := except_bind_eq_ok.mp h
    cases h
    rw [List.mem_append, not_or] at hno
    exact .inr ⟨hno.1, changes, hchanges, hno.2⟩

theorem admits_kept_of_text (h : canonicalJson before = canonicalJson after) (value : Wire)
    (hv : admits checks after value = true) : admits checks (kept side before (unwrapped after).core) value = true := by
  refine admits_kept_of_both before after value ?_ hv
  rw [(same_of_text h).value]
  exact hv

/-- What the cores of two shapes need for the shapes. -/
theorem withWrappers_sound {coreLines : Answer (List AccessEffect)} (h : withWrappers before after coreLines = .ok lines)
    (hno : AccessEffect.widens ∉ lines) (hcore : ∀ changes, coreLines = .ok changes → AccessEffect.widens ∉ changes → ∀ value,
      admits checks (unwrapped after).core value = true → admits checks (kept side before (unwrapped after).core) value = true)
    (value : Wire) (hv : admits checks after value = true) :
    admits checks (kept side before (unwrapped after).core) value = true := by
  obtain heq | ⟨hwrappers, changes, hchanges, hno⟩ := withWrappers_cases h hno
  · exact admits_kept_of_text heq value hv
  · exact admits_kept_of_core hwrappers (hcore changes hchanges hno) value hv

theorem fieldChanges_all {compared : List (Units × Answer (List AccessEffect))}
    (h : fieldChanges fields others compared = .ok lines) (hno : AccessEffect.widens ∉ lines)
    (hname : name ∈ fields.map Prod.fst ∨ name ∈ others.map Prod.fst) :
    ∃ changes, (compared.lookup name).getD (gainedField name others) = .ok changes ∧ AccessEffect.widens ∉ changes := by
  obtain ⟨all, hall, h⟩ := except_bind_eq_ok.mp h
  cases h
  obtain ⟨changes, hchanges, hmem⟩ := except_mapM_all hall name ((mem_unionTexts).mpr hname)
  exact ⟨changes, hchanges, fun hwidens => hno (List.mem_flatten.mpr ⟨changes, hmem, hwidens⟩)⟩

theorem inheritedChange_widens {wrappers : List AccessEffect} (h : inheritedChange name wrappers = .ok lines) :
    AccessEffect.widens ∈ lines := by
  unfold inheritedChange at h
  split at h
  · cases h
    simp
  · cases h

/-- A field the old object does not have is a widening line. -/
theorem gainedField_widens (h : gainedField name others = .ok lines) (hname : name ∈ others.map Prod.fst) :
    AccessEffect.widens ∈ lines := by
  obtain ⟨after, hafter⟩ := Option.isSome_iff_exists.mp (lookup_of_mem_names hname)
  unfold gainedField at h
  rw [hafter] at h
  split at h
  · next heq => cases heq
  · cases h
    exact List.mem_cons_self
  · exact inheritedChange_widens h

/-- A field of the old object, where no line of its comparison widens: the new one has it and
    their lines do not widen, or the side may lose it. -/
theorem fieldLines_cases {core : SchemaShape → Answer (List AccessEffect)}
    (h : fieldLines side name before others core = .ok lines) (hno : AccessEffect.widens ∉ lines) :
    (∃ after, others.lookup name = some after ∧ withWrappers before after (core (unwrapped after).core) = .ok lines)
      ∨ others.lookup name = none ∧ isInherited name = false ∧ (side = .input → (unwrapped before).optional = true) := by
  unfold fieldLines propertyOf at h
  cases hafter : others.lookup name with
  | some after =>
    rw [hafter] at h
    exact .inl ⟨after, rfl, h⟩
  | none =>
    rw [hafter] at h
    dsimp only at h
    by_cases hinherited : isInherited name = true
    · rw [show (prototypeProperties.map codeUnits).contains name = true from hinherited, if_pos rfl] at h
      exact (hno (inheritedChange_widens h)).elim
    · rw [show (prototypeProperties.map codeUnits).contains name = false from Bool.eq_false_iff.mpr hinherited,
        if_neg Bool.false_ne_true] at h
      refine .inr ⟨rfl, Bool.eq_false_iff.mpr hinherited, fun hside => ?_⟩
      cases h
      by_contra hrequired
      rw [Bool.not_eq_true] at hrequired
      simp [lostField, hside, hrequired] at hno

/-- The lines of one field of an object, where none of the object's widens. -/
theorem field_cases (hnodup : (fields.map Prod.fst).Nodup)
    (h : fieldChanges fields others (comparedFields side fields others) = .ok lines) (hno : AccessEffect.widens ∉ lines)
    {field : Units × SchemaShape} (hfield : field ∈ fields) :
    (∃ after changes, others.lookup field.1 = some after ∧ AccessEffect.widens ∉ changes
        ∧ withWrappers field.2 after (coreChanges side field.2 (unwrapped after).core) = .ok changes)
      ∨ others.lookup field.1 = none ∧ isInherited field.1 = false ∧ (side = .input → (unwrapped field.2).optional = true) := by
  obtain ⟨changes, hchanges, hno⟩ := fieldChanges_all h hno (.inl (List.mem_map_of_mem hfield))
  rw [comparedFields_lookup, (Json.lookup_eq_some_iff hnodup).mpr hfield] at hchanges
  obtain ⟨after, hafter, hlines⟩ | hlost := fieldLines_cases hchanges hno
  · exact .inl ⟨after, changes, hafter, hno, hlines⟩
  · exact .inr hlost

/-- No name is new where no line widens. -/
theorem names_kept (h : fieldChanges fields others (comparedFields side fields others) = .ok lines)
    (hno : AccessEffect.widens ∉ lines) (hname : name ∈ others.map Prod.fst) : name ∈ fields.map Prod.fst := by
  by_contra hnew
  obtain ⟨changes, hchanges, hno⟩ := fieldChanges_all h hno (.inr hname)
  have hnone : fields.lookup name = none := by
    by_contra hsome
    obtain ⟨shape, hshape⟩ := Option.ne_none_iff_exists'.mp hsome
    exact hnew (mem_names_of_lookup hshape)
  rw [comparedFields_lookup, hnone] at hchanges
  exact hno (gainedField_widens hchanges hname)

theorem fields_sound (hnodup : (fields.map Prod.fst).Nodup)
    (h : fieldChanges fields others (comparedFields side fields others) = .ok lines) (hno : AccessEffect.widens ∉ lines)
    (ih : ∀ field ∈ fields, ∀ t changes, coreChanges side field.2 t = .ok changes → AccessEffect.widens ∉ changes → ∀ value,
      admits checks t value = true → admits checks (kept side field.2 t) value = true) (value : Wire)
    (hv : admits checks (.object others) value = true) :
    admits checks (.object (keptFields side fields others)) value = true := by
  obtain ⟨listed, get, hobject, hnames, hothers⟩ := admits_object_iff.mp hv
  refine admits_object_iff.mpr ⟨listed, get, hobject, fun name hname => ?_, fun field hfield => ?_⟩
  · have hother := hnames name hname
    exact name_kept (names_kept h hno hother) hother
  · rw [keptFields_eq] at hfield
    obtain ⟨before, hbefore, hkept⟩ := List.mem_filterMap.mp hfield
    unfold keptField at hkept
    obtain ⟨after, changes, hafter, hno, hlines⟩ | ⟨hlost, hown, hoptional⟩ := field_cases hnodup h hno hbefore
    · rw [hafter] at hkept
      cases hkept
      have hvalue := hothers _ (Json.mem_of_lookup_eq_some hafter)
      exact withWrappers_sound hlines hno (fun changes => ih before hbefore _ changes) _ hvalue
    · rw [hlost] at hkept
      by_cases hside : side = .input
      · rw [if_pos hside] at hkept
        cases hkept
        have habsent : field.1 ∉ others.map Prod.fst := fun hmem => by
          have hsome := lookup_of_mem_names hmem
          rw [hlost] at hsome
          cases hsome
        rw [get_eq_absent hobject (fun hlisted => habsent (hnames _ hlisted)) hown, admits_unwrapped, hoptional hside]
        rfl
      · rw [if_neg hside] at hkept
        cases hkept

/-- Where no line widens, what the new core admits is admitted by what the side keeps of the old
    one. -/
theorem coreChanges_sound (s : SchemaShape) : ∀ t lines, distinct s = true → coreChanges side s t = .ok lines →
    AccessEffect.widens ∉ lines →
    ∀ value, admits checks t value = true → admits checks (kept side s t) value = true := by
  have hflat : ∀ {a b : SchemaShape} {lines : List AccessEffect},
      (if canonicalJson a = canonicalJson b then pure [] else pure (flatChanges a b) : Answer (List AccessEffect)) = .ok lines →
      AccessEffect.widens ∉ lines → ∀ value, admits checks b value = true → admits checks a value = true := by
    intro a b lines h hno value hv
    split at h
    · next heq =>
      rw [(same_of_text heq).value]
      exact hv
    · cases h
      exact flat_kept hno hv
  induction s using inductionOn with
  | optional inner ih =>
    intro t lines hdistinct h hno value hv
    rw [kept, admits, Bool.or_eq_true]
    exact .inr (ih t lines hdistinct h hno value hv)
  | nullable inner ih =>
    intro t lines hdistinct h hno value hv
    rw [kept, admits, Bool.or_eq_true]
    exact .inr (ih t lines hdistinct h hno value hv)
  | array items minItems maxItems ih =>
    intro t lines hdistinct h hno value hv
    cases t with
    | array others minOthers maxOthers =>
      rw [coreChanges] at h
      split at h
      · next heq => exact admits_kept_of_text heq value hv
      · obtain ⟨changes, hchanges, h⟩ := except_bind_eq_ok.mp h
        cases h
        simp only [List.mem_append, not_or] at hno
        obtain ⟨xs, rfl, hmin, hmax, hothers⟩ := admits_array_iff.mp hv
        refine admits_array_iff.mpr ⟨xs, rfl, lowerLimit_kept hno.1.1 hmin, limit_kept hno.1.2 hmax, fun x hx => ?_⟩
        exact withWrappers_sound hchanges hno.2 (fun changes hcore hno => ih _ changes hdistinct hcore hno) _ (hothers x hx)
    | _ => exact hflat h hno value hv
  | object fields ih =>
    intro t lines hdistinct h hno value hv
    cases t with
    | object others =>
      rw [coreChanges] at h
      split at h
      · next heq => exact admits_kept_of_text heq value hv
      · rw [distinct, Bool.and_eq_true, decide_eq_true_eq, fieldsDistinct_eq, List.all_eq_true] at hdistinct
        exact fields_sound hdistinct.1 h hno (fun field hfield t changes =>
          ih field hfield t changes (hdistinct.2 field hfield)) value hv
    | _ => exact hflat h hno value hv
  | _ =>
    intro t lines hdistinct h hno value hv
    exact hflat h hno value hv

theorem shapeChanges_sound (hdistinct : distinct before = true) (h : shapeChanges side before after = .ok lines)
    (hno : AccessEffect.widens ∉ lines) (value : Wire) (hv : admits checks after value = true) :
    admits checks (kept side before (unwrapped after).core) value = true :=
  withWrappers_sound h hno (fun _ hcore hno => coreChanges_sound before _ _ hdistinct hcore hno) value hv

/-! ## Paths -/

theorem core_normal_eq (s : SchemaShape) : ∀ t, (shapeJson s).normal = (shapeJson t).normal →
    (shapeJson (unwrapped s).core).normal = (shapeJson (unwrapped t).core).normal := by
  induction s using inductionOn with
  | optional inner ih =>
    intro t h
    cases t with
    | optional other => exact ih other (Option.some.inj (part_eq h "inner"))
    | _ => exact (not_same_text (by simp [typeName]) h).elim
  | nullable inner ih =>
    intro t h
    cases t with
    | nullable other => exact ih other (Option.some.inj (part_eq h "inner"))
    | _ => exact (not_same_text (by simp [typeName]) h).elim
  | _ =>
    intro t h
    cases t with
    | optional other => exact (not_same_text (by simp [typeName]) h).elim
    | nullable other => exact (not_same_text (by simp [typeName]) h).elim
    | _ => exact h

theorem getElem?_of_normal_eq {shapes others : List SchemaShape}
    (h : (Json.arr (shapes.map shapeJson)).normal = (Json.arr (others.map shapeJson)).normal) {index : Nat} {other : SchemaShape}
    (hother : others[index]? = some other) : ∃ shape, shapes[index]? = some shape ∧
    (shapeJson shape).normal = (shapeJson other).normal := by
  simp only [Json.normal_arr, Json.arr.injEq, List.map_map] at h
  have hindex := congrArg (fun xs => xs[index]?) h
  rw [List.getElem?_map, List.getElem?_map, hother, Option.map_some, Option.map_eq_some_iff] at hindex
  exact hindex

/-- Where two cores have one text, a path of one is a path of the other, to shapes of one text. -/
theorem carries_of_core {t u : SchemaShape} (h : Carries t path u) : ∀ s,
    (shapeJson (unwrapped s).core).normal = (shapeJson (unwrapped t).core).normal →
    (path = [] → (shapeJson s).normal = (shapeJson t).normal) → ∃ w, Carries s path w ∧
    (shapeJson w).normal = (shapeJson u).normal := by
  induction h with
  | here t =>
    intro s _ hnil
    exact ⟨s, .here s, hnil rfl⟩
  | @field t inner u fields name path hcore hfield _ ih =>
    intro s htext _
    rw [hcore] at htext
    cases hs : (unwrapped s).core with
    | object others =>
      rw [hs] at htext
      have hperm := (Json.fields_perm_of_normal_eq (Option.some.inj (part_eq htext "fields"))).symm
      have hmem := hperm.subset (List.mem_map_of_mem (List.mem_map_of_mem hfield))
      obtain ⟨entry, hentry, heq⟩ := List.mem_map.mp hmem
      obtain ⟨other, hother, rfl⟩ := List.mem_map.mp hentry
      obtain ⟨hname, hvalue⟩ := Prod.ext_iff.mp heq
      have hname : other.1 = name := hname
      obtain ⟨w, hw, hwu⟩ := ih other.2 (core_normal_eq _ _ hvalue) fun _ => hvalue
      exact ⟨w, .field hs (hname ▸ hother) hw, hwu⟩
    | _ =>
      rw [hs] at htext
      exact (not_same_text (by simp [typeName]) htext).elim
  | items hcore _ ih =>
    intro s htext _
    rw [hcore] at htext
    cases hs : (unwrapped s).core with
    | array others minOthers maxOthers =>
      rw [hs] at htext
      have hitems := Option.some.inj (part_eq htext "items")
      obtain ⟨w, hw, hwu⟩ := ih others (core_normal_eq _ _ hitems) fun _ => hitems
      exact ⟨w, .items hs hw, hwu⟩
    | _ =>
      rw [hs] at htext
      exact (not_same_text (by simp [typeName]) htext).elim
  | position hcore hitem _ ih =>
    intro s htext _
    rw [hcore] at htext
    cases hs : (unwrapped s).core with
    | tuple others rest =>
      rw [hs] at htext
      obtain ⟨other, hother, hvalue⟩ := getElem?_of_normal_eq (Option.some.inj (part_eq htext "items")) hitem
      obtain ⟨w, hw, hwu⟩ := ih other (core_normal_eq _ _ hvalue) fun _ => hvalue
      exact ⟨w, .position hs hother hw, hwu⟩
    | _ =>
      rw [hs] at htext
      exact (not_same_text (by simp [typeName]) htext).elim
  | rest hcore _ ih =>
    intro s htext _
    rw [hcore] at htext
    cases hs : (unwrapped s).core with
    | tuple others rest =>
      rw [hs] at htext
      have hrest : (restJson rest).normal = (shapeJson _).normal := Option.some.inj (part_eq htext "rest")
      cases rest with
      | none => simp [restJson, shapeJson_eq, Json.object, Json.normal] at hrest
      | some other =>
        obtain ⟨w, hw, hwu⟩ := ih other (core_normal_eq _ _ hrest) fun _ => hrest
        exact ⟨w, .rest hs hw, hwu⟩
    | _ =>
      rw [hs] at htext
      exact (not_same_text (by simp [typeName]) htext).elim
  | entry hcore _ ih =>
    intro s htext _
    rw [hcore] at htext
    cases hs : (unwrapped s).core with
    | record key other =>
      rw [hs] at htext
      have hvalue := Option.some.inj (part_eq htext "value")
      obtain ⟨w, hw, hwu⟩ := ih other (core_normal_eq _ _ hvalue) fun _ => hvalue
      exact ⟨w, .entry hs hw, hwu⟩
    | _ =>
      rw [hs] at htext
      exact (not_same_text (by simp [typeName]) htext).elim
  | option hcore hoption _ ih =>
    intro s htext _
    rw [hcore] at htext
    cases hs : (unwrapped s).core with
    | union others =>
      rw [hs] at htext
      obtain ⟨other, hother, hvalue⟩ := getElem?_of_normal_eq (Option.some.inj (part_eq htext "options")) hoption
      obtain ⟨w, hw, hwu⟩ := ih other (core_normal_eq _ _ hvalue) fun _ => hvalue
      exact ⟨w, .option hs hother hw, hwu⟩
    | _ =>
      rw [hs] at htext
      exact (not_same_text (by simp [typeName]) htext).elim

theorem distinct_core (s : SchemaShape) : distinct (unwrapped s).core = distinct s := by
  induction s using inductionOn with
  | optional inner ih => exact ih
  | nullable inner ih => exact ih
  | _ => rfl

theorem coreChanges_core (s after : SchemaShape) : coreChanges side s after = coreChanges side (unwrapped s).core after := by
  induction s using inductionOn with
  | optional inner ih => exact ih
  | nullable inner ih => exact ih
  | _ => rfl

/-- A shape with shapes in it. -/
def isStructure : SchemaShape → Bool
  | .object _ => true
  | .array .. => true
  | .tuple .. => true
  | .record .. => true
  | .union _ => true
  | _ => false

theorem finiteValues_structure (h : isStructure s = true) : finiteValues s = none := by
  cases s <;> first | rfl | cases h

theorem flat_text {a b : SchemaShape} (hb : isStructure b = true)
    (h : (if canonicalJson a = canonicalJson b then pure [] else pure (flatChanges a b) : Answer (List AccessEffect)) = .ok lines)
    (hno : AccessEffect.widens ∉ lines) : canonicalJson a = canonicalJson b := by
  split at h
  · next heq => exact heq
  · cases h
    unfold flatChanges at hno
    split at hno
    · next hfinite =>
      rw [finiteValues_structure hb] at hfinite
      cases hfinite
    · split at hno
      · cases hb
      · cases hb
      · exact widens_valueChange.mp hno

/-- Where no line widens, the cores of a shape with shapes in it have one text, or are two
    objects or two arrays. -/
theorem coreChanges_cases (hafter : isStructure after = true) (h : coreChanges side (unwrapped s).core after = .ok lines)
    (hno : AccessEffect.widens ∉ lines) :
    canonicalJson (unwrapped s).core = canonicalJson after
      ∨ (∃ fields others, (unwrapped s).core = .object fields ∧ after = .object others)
      ∨ ∃ items minItems maxItems others minOthers maxOthers, (unwrapped s).core = .array items minItems maxItems
        ∧ after = .array others minOthers maxOthers := by
  have hcore := core_not_wrapper s
  cases hs : (unwrapped s).core with
  | optional inner =>
    rw [hs, unwrapped] at hcore
    exact absurd (congrArg Unwrapped.optional hcore) (by simp)
  | nullable inner =>
    rw [hs, unwrapped] at hcore
    exact absurd (congrArg Unwrapped.nullable hcore) (by simp)
  | object fields =>
    rw [hs] at h
    cases after with
    | object others => exact .inr (.inl ⟨fields, others, rfl, rfl⟩)
    | _ => exact .inl (flat_text hafter h hno)
  | array items minItems maxItems =>
    rw [hs] at h
    cases after with
    | array others minOthers maxOthers => exact .inr (.inr ⟨items, minItems, maxItems, others, minOthers, maxOthers, rfl, rfl⟩)
    | _ => exact .inl (flat_text hafter h hno)
  | _ =>
    rw [hs] at h
    exact .inl (flat_text hafter h hno)

/-- The path leads somewhere in the old shape too, and what the side keeps there admits what the
    new shape does. -/
def PassesAt (checks : Checks) (side : SchemaSide) (old : SchemaShape) (path : List PathStep) (target : SchemaShape) : Prop :=
  ∃ found, Carries old path found
    ∧ ∀ value, admits checks target value = true → admits checks (kept side found (unwrapped target).core) value = true

theorem passesAt_of_core {old new target : SchemaShape} {step : PathStep} (h : Carries new (step :: path) target)
    (htext : (shapeJson (unwrapped old).core).normal = (shapeJson (unwrapped new).core).normal) :
    PassesAt checks side old (step :: path) target := by
  obtain ⟨found, hfound, heq⟩ := carries_of_core h old htext (by simp)
  exact ⟨found, hfound, admits_kept_of_text (Json.canonicalText_eq_iff.mpr heq)⟩

variable (checks) in
/-- The first step of a path: the cores have one text, and so the path leads on, or they are two
    objects or two arrays whose lines do not widen. -/
theorem first_step {old new core target : SchemaShape} (h : shapeChanges side old new = .ok lines)
    (hno : AccessEffect.widens ∉ lines) (hnew : (unwrapped new).core = core) (hcore : isStructure core = true) {step : PathStep}
    (hpath : Carries new (step :: path) target) :
    PassesAt checks side old (step :: path) target
      ∨ (∃ fields others changes, (unwrapped old).core = .object fields ∧ core = .object others ∧ AccessEffect.widens ∉ changes
        ∧ fieldChanges fields others (comparedFields side fields others) = .ok changes)
      ∨ ∃ items minItems maxItems others minOthers maxOthers changes, (unwrapped old).core = .array items minItems maxItems
        ∧ core = .array others minOthers maxOthers ∧ AccessEffect.widens ∉ changes ∧
        shapeChanges side items others = .ok changes := by
  have hof : canonicalJson (unwrapped old).core = canonicalJson core → PassesAt checks side old (step :: path) target :=
    fun heq =>
    passesAt_of_core hpath (hnew ▸ Json.canonicalText_eq_iff.mp heq)
  obtain heq | ⟨-, changes, hchanges, hno⟩ := withWrappers_cases h hno
  · exact .inl (passesAt_of_core hpath (core_normal_eq _ _ (Json.canonicalText_eq_iff.mp heq)))
  · rw [coreChanges_core, hnew] at hchanges
    obtain heq | ⟨fields, others, hold, rfl⟩ | ⟨items, minItems, maxItems, others, minOthers, maxOthers, hold, rfl⟩ :=
      coreChanges_cases hcore hchanges hno
    · exact .inl (hof heq)
    · rw [hold, coreChanges] at hchanges
      split at hchanges
      · next heq => exact .inl (hof (hold ▸ heq))
      · exact .inr (.inl ⟨fields, others, changes, hold, rfl, hno, hchanges⟩)
    · rw [hold, coreChanges] at hchanges
      split at hchanges
      · next heq => exact .inl (hof (hold ▸ heq))
      · obtain ⟨inner, hinner, hchanges⟩ := except_bind_eq_ok.mp hchanges
        cases hchanges
        rw [List.mem_append, not_or] at hno
        exact .inr (.inr ⟨items, minItems, maxItems, others, minOthers, maxOthers, inner, hold, rfl, hno.2, hinner⟩)

/-- Where no line widens, every path of the new shape is a path of the old one. -/
theorem carries_sound {new target : SchemaShape} (h : Carries new path target) : ∀ old lines,
    distinct old = true → distinct new = true → shapeChanges side old new = .ok lines → AccessEffect.widens ∉ lines →
    PassesAt checks side old path target := by
  induction h with
  | here new =>
    intro old lines hold _ hlines hno
    exact ⟨old, .here old, shapeChanges_sound hold hlines hno⟩
  | @field new inner target fields name path hcore hfield hrest ih =>
    intro old lines hold hnew hlines hno
    obtain hpasses | ⟨olds, others, changes, hs, hothers, hno, hchanges⟩ | ⟨_, _, _, _, _, _, _, _, harray, _⟩ :=
      first_step checks hlines hno hcore rfl (.field hcore hfield hrest)
    · exact hpasses
    · cases hothers
      rw [← distinct_core, hs, distinct, Bool.and_eq_true, decide_eq_true_eq, fieldsDistinct_eq, List.all_eq_true] at hold
      rw [← distinct_core, hcore, distinct, Bool.and_eq_true, decide_eq_true_eq, fieldsDistinct_eq, List.all_eq_true] at hnew
      obtain ⟨before, hbefore, hname⟩ := List.mem_map.mp (names_kept hchanges hno (List.mem_map_of_mem hfield))
      have hlookup : fields.lookup before.1 = some inner := by
        rw [hname]
        exact (Json.lookup_eq_some_iff hnew.1).mpr hfield
      obtain ⟨after, found, hafter, hno, hwrapped⟩ | ⟨hlost, -, -⟩ := field_cases hold.1 hchanges hno hbefore
      · rw [hlookup] at hafter
        cases hafter
        obtain ⟨w, hw, hadmits⟩ := ih before.2 found (hold.2 before hbefore) (hnew.2 _ hfield) hwrapped hno
        have hname : before.1 = name := hname
        exact ⟨w, .field hs (hname ▸ hbefore) hw, hadmits⟩
      · rw [hlookup] at hlost
        cases hlost
    · cases harray
  | items hcore hrest ih =>
    intro old lines hold hnew hlines hno
    obtain hpasses | ⟨_, _, _, _, hobject, _⟩ | ⟨items, minItems, maxItems, others, _, _, changes, hs, hothers, hno, hchanges⟩ :=
      first_step checks hlines hno hcore rfl (.items hcore hrest)
    · exact hpasses
    · cases hobject
    · cases hothers
      rw [← distinct_core, hs] at hold
      rw [← distinct_core, hcore] at hnew
      obtain ⟨w, hw, hadmits⟩ := ih items changes hold hnew hchanges hno
      exact ⟨w, .items hs hw, hadmits⟩
  | position hcore hitem hrest _ =>
    intro old lines _ _ hlines hno
    obtain hpasses | ⟨_, _, _, _, hobject, _⟩ | ⟨_, _, _, _, _, _, _, _, harray, _⟩ :=
      first_step checks hlines hno hcore rfl (.position hcore hitem hrest)
    · exact hpasses
    · cases hobject
    · cases harray
  | rest hcore hrest _ =>
    intro old lines _ _ hlines hno
    obtain hpasses | ⟨_, _, _, _, hobject, _⟩ | ⟨_, _, _, _, _, _, _, _, harray, _⟩ :=
      first_step checks hlines hno hcore rfl (.rest hcore hrest)
    · exact hpasses
    · cases hobject
    · cases harray
  | entry hcore hrest _ =>
    intro old lines _ _ hlines hno
    obtain hpasses | ⟨_, _, _, _, hobject, _⟩ | ⟨_, _, _, _, _, _, _, _, harray, _⟩ :=
      first_step checks hlines hno hcore rfl (.entry hcore hrest)
    · exact hpasses
    · cases hobject
    · cases harray
  | option hcore hoption hrest _ =>
    intro old lines _ _ hlines hno
    obtain hpasses | ⟨_, _, _, _, hobject, _⟩ | ⟨_, _, _, _, _, _, _, _, harray, _⟩ :=
      first_step checks hlines hno hcore rfl (.option hcore hoption hrest)
    · exact hpasses
    · cases hobject
    · cases harray

/-! ## Lines that narrow admit no new value -/

/-- What a schema change without a widening line says. An input: the old shape admits every value
    the new one admits. An output: every path of the new shape is a path of the old one, and each
    value the new shape admits there is one the old shape admits there once the fields the new
    shape lost are left out of it. -/
theorem narrowing_admits_no_new_value (checks : Checks) (old new : Shape) :
    (∀ lines, schemaChanges .input (some old.shape) (some new.shape) = .ok lines → AccessEffect.widens ∉ lines →
      ∀ value, admits checks new.shape value = true → admits checks old.shape value = true)
    ∧ ∀ lines, schemaChanges .output (some old.shape) (some new.shape) = .ok lines → AccessEffect.widens ∉ lines →
      ∀ path target, Carries new.shape path target →
        ∃ found, Carries old.shape path found
          ∧ ∀ value, admits checks target value = true → admits checks (withoutLost found target) value = true := by
  refine ⟨fun lines h hno value hv => ?_, fun lines h hno path target hpath => ?_⟩
  · have hkept := shapeChanges_sound old.distinct h hno value hv
    rwa [kept_input] at hkept
  · exact carries_sound hpath old.shape lines old.distinct new.distinct h hno

/-- An output's field that answers `x` and `y`. -/
def pointShape : SchemaShape := .object [(codeUnits "x", .boolean), (codeUnits "y", .boolean)]

/-- The same field, which answers `x` only. -/
def lineShape : SchemaShape := .object [(codeUnits "x", .boolean)]

/-- A field that an object at a path loses is a narrowing line, though the old shape admits no
    object without it. -/
theorem a_lost_field_leaves_a_new_value :
    let old : SchemaShape := .object [(codeUnits "at", pointShape)]
    let new : SchemaShape := .object [(codeUnits "at", lineShape)]
    let value : Wire := .json (.obj [(codeUnits "x", .bool true)])
    schemaChanges .output (some old) (some new) = .ok [.narrows]
      ∧ Carries new [.field (codeUnits "at")] lineShape
      ∧ ∀ checks, admits checks lineShape value = true
        ∧ ∀ found, Carries old [.field (codeUnits "at")] found → admits checks found value = false := by
  refine ⟨by decide, .field rfl List.mem_cons_self (.here _), fun checks => ⟨by rfl, fun found h => ?_⟩⟩
  cases h with
  | field hcore hfield h =>
    cases hcore
    cases h
    cases List.mem_singleton.mp hfield
    rfl

end Fabrika.Control
