/-
  Fabrika.App.SchemaValuesProofs — shapes of one text admit the same values, and the canonical
  shape of a shape admits what the shape admits.

  `Same` is what both rest on: two shapes admit the same values and the same keys of a record.
  Every constructor keeps it.
-/

import Fabrika.App.SchemaValues
import Fabrika.Lib.Reorder

namespace Fabrika.App.SchemaValues

open Fabrika.Lib
open Fabrika.App.Params (SchemaShape StringShape NumberShape StringFormat Scalar Fields SIGNED_TOKEN_MAX_LENGTH isInherited)

/-- Induction over a shape and the shapes in it. -/
theorem inductionOn {P : SchemaShape → Prop} (string : ∀ shape, P (.string shape)) (number : ∀ shape, P (.number shape))
    (boolean : P .boolean)
    (null : P .null) (literal : ∀ value, P (.literal value)) (enum : ∀ values, P (.enum values))
    (array : ∀ items minItems maxItems, P items → P (.array items minItems maxItems))
    (tuple : ∀ items rest, (∀ item ∈ items, P item) → (∀ shape, rest = some shape → P shape) → P (.tuple items rest))
    (record : ∀ key value, P key → P value → P (.record key value))
    (object : ∀ fields, (∀ field ∈ fields, P field.2) → P (.object fields))
    (optional : ∀ inner, P inner → P (.optional inner)) (nullable : ∀ inner, P inner → P (.nullable inner))
    (union : ∀ options, (∀ option ∈ options, P option) → P (.union options)) (token : ∀ purpose, P (.token purpose))
    (file : ∀ kind, P (.file kind)) (shape : SchemaShape) : P shape :=
  @SchemaShape.rec P (fun shapes => ∀ shape ∈ shapes, P shape) (fun rest => ∀ shape, rest = some shape → P shape)
    (fun fields => ∀ field ∈ fields, P field.2) (fun field => P field.2) string number boolean null literal enum
    (fun items minItems maxItems h => array items minItems maxItems h) (fun items rest hitems hrest =>
      tuple items rest hitems hrest)
    record object optional nullable union token file (by simp)
    (fun shape shapes h hs => by simpa using ⟨h, hs⟩) (by simp)
    (fun shape h => by
      intro other hother
      cases hother
      exact h)
    (by simp)
    (fun field fields h hs => by
      intro other hother
      rcases List.mem_cons.mp hother with rfl | hother
      · exact h
      · exact hs other hother)
    (fun _ _ h => h) shape

/-! ## Kinds of values -/

variable {value : Wire} {name : Units} {α : Type} {s t : SchemaShape} {others options : List SchemaShape}
variable {a b : List (Units × SchemaShape)}

theorem onText_iff {test : Units → Bool} : onText test value = true ↔ ∃ text, value = .json (.str text) ∧ test text = true := by
  unfold onText
  split <;> simp_all

theorem onNumber_iff {test : Double → Bool} : onNumber test value = true ↔ ∃ x, value = .json (.num x) ∧ test x = true := by
  unfold onNumber
  split <;> simp_all

theorem onArray_iff {test : List (Json Double) → Bool} :
    onArray test value = true ↔ ∃ xs, value = .json (.arr xs) ∧ test xs = true := by
  unfold onArray
  split <;> simp_all

theorem onObject_iff {test : List Units → (Units → Wire) → Bool} :
    onObject test value = true ↔ ∃ listed get, objectOf value = some (listed, get) ∧ test listed get = true := by
  rw [onObject, Option.any_eq_true]
  constructor
  · intro h
    obtain ⟨⟨listed, get⟩, hobject, htest⟩ := h
    exact ⟨listed, get, hobject, htest⟩
  · intro h
    obtain ⟨listed, get, hobject, htest⟩ := h
    exact ⟨(listed, get), hobject, htest⟩

theorem isAbsent_iff : value.isAbsent = true ↔ value = .absent := by
  cases value <;> simp [Wire.isAbsent]

section
variable {listed : List Units} {get : Units → Wire} (h : objectOf value = some (listed, get)) (hlisted : name ∉ listed)
include h hlisted

theorem get_unlisted (hproto : name ≠ codeUnits "__proto__") : get name = .missing name := by
  unfold objectOf at h
  split at h
  · next fields =>
    cases h
    have hnone : fields.lookup name = none := by
      rw [List.lookup_eq_none_iff]
      intro field hfield
      exact bne_iff_ne.mpr fun heq => hlisted (heq ▸ List.mem_map_of_mem hfield)
    rw [Wire.field, hnone]
    rfl
  · split at h
    · cases h
      rw [Wire.ofPrototype, if_neg hproto]
    · cases h
  · cases h

/-- An object answers nothing for a name it does not list and no object inherits. -/
theorem get_eq_absent (hown : isInherited name = false) : get name = .absent := by
  have hproto : name ≠ codeUnits "__proto__" := by
    intro heq
    rw [heq] at hown
    exact absurd hown (by decide)
  rw [get_unlisted h hlisted hproto, Wire.missing, hown, if_neg Bool.false_ne_true]

end

/-! ## Lists of shapes -/

theorem shapeJsons_eq (shapes : List SchemaShape) : shapeJsons shapes = shapes.map shapeJson := by
  induction shapes with
  | nil => rfl
  | cons shape rest ih => rw [shapeJsons, ih, List.map_cons]

theorem fieldJsons_eq (fields : List (Units × SchemaShape)) : fieldJsons fields = fields.map (Prod.map id shapeJson) := by
  induction fields with
  | nil => rfl
  | cons field rest ih =>
    obtain ⟨name, shape⟩ := field
    rw [fieldJsons, ih, List.map_cons]
    rfl

theorem canonicalShapes_eq (shapes : List SchemaShape) : canonicalShapes shapes = shapes.map canonicalShape := by
  induction shapes with
  | nil => rfl
  | cons shape rest ih => rw [canonicalShapes, ih, List.map_cons]

theorem canonicalFields_eq (fields : List (Units × SchemaShape)) :
    canonicalFields fields = fields.map (Prod.map id canonicalShape) := by
  induction fields with
  | nil => rfl
  | cons field rest ih =>
    obtain ⟨name, shape⟩ := field
    rw [canonicalFields, ih, List.map_cons]
    rfl

variable {checks : Checks}

theorem someAdmits_eq (options : List SchemaShape) (value : Wire) :
    someAdmits checks options value = options.any fun option => admits checks option value := by
  induction options with
  | nil => rfl
  | cons option rest ih => rw [someAdmits, ih, List.any_cons]

theorem someAdmitsKey_eq (options : List SchemaShape) (key : Units) :
    someAdmitsKey checks options key = options.any fun option => admitsKey checks option key := by
  induction options with
  | nil => rfl
  | cons option rest ih => rw [someAdmitsKey, ih, List.any_cons]

theorem admitsFields_eq (shapes : List (Units × SchemaShape)) (get : Units → Wire) :
    admitsFields checks shapes get = shapes.all fun shape => admits checks shape.2 (get shape.1) := by
  induction shapes with
  | nil => rfl
  | cons shape rest ih =>
    obtain ⟨name, shape⟩ := shape
    rw [admitsFields, ih, List.all_cons]

/-! ## Fields by name -/

theorem fieldsDistinct_eq (fields : Fields) : fieldsDistinct fields = fields.all fun field => distinct field.2 := by
  induction fields with
  | nil => rfl
  | cons field rest ih =>
    obtain ⟨name, shape⟩ := field
    rw [fieldsDistinct, ih, List.all_cons]

theorem allDistinct_eq (shapes : List SchemaShape) : allDistinct shapes = shapes.all distinct := by
  induction shapes with
  | nil => rfl
  | cons shape rest ih => rw [allDistinct, ih, List.all_cons]

theorem mem_names_of_lookup {fields : List (Units × α)} {value : α} (h : fields.lookup name = some value) :
    name ∈ fields.map Prod.fst := List.mem_map_of_mem (Json.mem_of_lookup_eq_some h)

theorem lookup_of_mem_names {fields : List (Units × α)} (h : name ∈ fields.map Prod.fst) :
    (fields.lookup name).isSome = true := by
  rw [Option.isSome_iff_ne_none]
  intro hnone
  rw [List.lookup_eq_none_iff] at hnone
  obtain ⟨field, hfield, rfl⟩ := List.mem_map.mp h
  simpa using hnone field hfield

theorem admits_object_iff {shapes : List (Units × SchemaShape)} :
    admits checks (.object shapes) value = true ↔ ∃ listed get, objectOf value = some (listed, get)
      ∧ (∀ name ∈ listed, name ∈ shapes.map Prod.fst) ∧ ∀ shape ∈ shapes, admits checks shape.2 (get shape.1) = true := by
  rw [admits, onObject_iff]
  simp only [Bool.and_eq_true, admitsFields_eq, List.all_eq_true, List.contains_iff_mem]

theorem admits_array_iff {items : SchemaShape} {minItems maxItems : Option Nat} :
    admits checks (.array items minItems maxItems) value = true ↔ ∃ xs, value = .json (.arr xs) ∧
    minItems.all (· ≤ xs.length) = true
      ∧ maxItems.all (xs.length ≤ ·) = true ∧ ∀ x ∈ xs, admits checks items (.json x) = true := by
  rw [admits, onArray_iff]
  simp only [Bool.and_eq_true, List.all_eq_true, and_assoc]

/-- No schema admits a function. -/
theorem function_refused (s : SchemaShape) (hproto : name ≠ codeUnits "__proto__") :
    admits checks s (.inherited name) = false := by
  have hobject : ∀ test, onObject test (.inherited name) = false := by
    intro test
    rw [onObject, objectOf, if_neg hproto]
    rfl
  induction s using inductionOn with
  | literal value => cases value <;> rfl
  | record key value _ _ =>
    rw [admits]
    split
    · exact hobject _
    · rfl
  | object fields _ =>
    rw [admits]
    exact hobject _
  | optional inner ih => exact ih
  | nullable inner ih => exact ih
  | union options ih =>
    rw [admits, someAdmits_eq, List.any_eq_false]
    intro option hoption
    rw [ih option hoption]
    exact Bool.false_ne_true
  | _ => rfl

/-! ## Shapes that admit the same -/

/-- The same names, or none listed on either side. -/
def SameNames : Option (List Units) → Option (List Units) → Prop
  | none, none => True
  | some a, some b => ∀ name, name ∈ a ↔ name ∈ b
  | _, _ => False

structure Same (checks : Checks) (s t : SchemaShape) : Prop where
  value : ∀ value, admits checks s value = admits checks t value
  key : ∀ key, admitsKey checks s key = admitsKey checks t key
  names : SameNames (keyValues s) (keyValues t)

theorem sameNames_refl (names : Option (List Units)) : SameNames names names := by
  cases names with
  | none => trivial
  | some names => exact fun _ => Iff.rfl

theorem Same.refl (s : SchemaShape) : Same checks s s := ⟨fun _ => rfl, fun _ => rfl, sameNames_refl _⟩

theorem sameNames_symm {a b : Option (List Units)} (h : SameNames a b) : SameNames b a := by
  match a, b with
  | none, none => trivial
  | some _, some _ => exact fun name => (h name).symm
  | none, some _ => exact h.elim
  | some _, none => exact h.elim

theorem Same.symm (h : Same checks s t) : Same checks t s :=
  ⟨fun value => (h.value value).symm, fun key => (h.key key).symm, sameNames_symm h.names⟩

theorem sameNames_cases {a b : Option (List Units)} (h : SameNames a b) :
    (a = none ∧ b = none) ∨ ∃ xs ys, a = some xs ∧ b = some ys ∧ ∀ name, name ∈ xs ↔ name ∈ ys := by
  match a, b with
  | none, none => exact .inl ⟨rfl, rfl⟩
  | some xs, some ys => exact .inr ⟨xs, ys, rfl, rfl, h⟩
  | none, some _ => exact h.elim
  | some _, none => exact h.elim

theorem sameNames_trans {a b c : Option (List Units)} (hab : SameNames a b) (hbc : SameNames b c) : SameNames a c := by
  obtain ⟨rfl, rfl⟩ | ⟨xs, ys, rfl, rfl, hxs⟩ := sameNames_cases hab
  · exact hbc
  · obtain ⟨hnone, -⟩ | ⟨_, zs, hys, rfl, hzs⟩ := sameNames_cases hbc
    · cases hnone
    · cases hys
      exact fun name => (hxs name).trans (hzs name)

theorem Same.trans {s t u : SchemaShape} (hst : Same checks s t) (htu : Same checks t u) : Same checks s u :=
  ⟨fun value => (hst.value value).trans (htu.value value), fun key => (hst.key key).trans (htu.key key),
    sameNames_trans hst.names htu.names⟩

/-- Shapes that are no schema of a record's key. -/
theorem Same.of_admits (hs : ∀ key, admitsKey checks s key = false) (ht : ∀ key, admitsKey checks t key = false)
    (hns : keyValues s = none) (hnt : keyValues t = none) (h : ∀ value, admits checks s value = admits checks t value) :
    Same checks s t :=
  ⟨h, fun key => by rw [hs, ht], by rw [hns, hnt]; trivial⟩

theorem Same.array (h : Same checks s t) (minItems maxItems : Option Nat) :
    Same checks (.array s minItems maxItems) (.array t minItems maxItems) := by
  refine .of_admits (fun _ => rfl) (fun _ => rfl) rfl rfl fun value => ?_
  simp only [admits, h.value]

theorem Same.optional (h : Same checks s t) : Same checks (.optional s) (.optional t) := by
  refine .of_admits (fun _ => rfl) (fun _ => rfl) rfl rfl fun value => ?_
  simp only [admits, h.value]

theorem Same.nullable (h : Same checks s t) : Same checks (.nullable s) (.nullable t) := by
  refine .of_admits (fun _ => rfl) (fun _ => rfl) rfl rfl fun value => ?_
  simp only [admits, h.value]

theorem admitsItems_same {items : List SchemaShape} (h : List.Forall₂ (Same checks) items others) (xs : List (Json Double)) :
    admitsItems checks items xs = admitsItems checks others xs := by
  induction h generalizing xs with
  | nil => rfl
  | cons hitem _ ih => rw [admitsItems, admitsItems, hitem.value, ih]

theorem admitsRest_same {rest other : Option SchemaShape} (h : Option.Rel (Same checks) rest other) (xs : List (Json Double)) :
    admitsRest checks rest xs = admitsRest checks other xs := by
  cases h with
  | none => rfl
  | some h => simp only [admitsRest, h.value]

theorem Same.tuple {items : List SchemaShape} {rest other : Option SchemaShape}
    (hitems : List.Forall₂ (Same checks) items others) (hrest : Option.Rel (Same checks) rest other) :
    Same checks (.tuple items rest) (.tuple others other) := by
  refine .of_admits (fun _ => rfl) (fun _ => rfl) rfl rfl fun value => ?_
  simp only [admits, admitsItems_same hitems, admitsRest_same hrest, hitems.length_eq]

theorem all_congr_mem {a b : List α} (h : ∀ x, x ∈ a ↔ x ∈ b) (p : α → Bool) : a.all p = b.all p := by
  rw [Bool.eq_iff_iff, List.all_eq_true, List.all_eq_true]
  exact ⟨fun hall x hx => hall x ((h x).mpr hx), fun hall x hx => hall x ((h x).mp hx)⟩

theorem contains_congr {a b : List Units} (h : ∀ x, x ∈ a ↔ x ∈ b) (x : Units) : a.contains x = b.contains x := by
  rw [Bool.eq_iff_iff, List.contains_iff_mem, List.contains_iff_mem]
  exact h x

theorem Same.record {key other s t : SchemaShape} (hkey : Same checks key other) (h : Same checks s t) :
    Same checks (.record key s) (.record other t) := by
  refine .of_admits (fun _ => rfl) (fun _ => rfl) rfl rfl fun value => ?_
  simp only [admits, h.value, hkey.key]
  obtain ⟨hk, ho⟩ | ⟨a, b, hk, ho, hnames⟩ := sameNames_cases hkey.names
  · rw [hk, ho]
  · have hcontains : a.contains = b.contains := funext (contains_congr hnames)
    rw [hk, ho]
    dsimp only
    congr 1
    funext listed get
    rw [all_congr_mem hnames, hcontains]

/-- Each field of one is a field of the other, by a shape that admits the same. -/
def FieldsWithin (checks : Checks) (a b : List (Units × SchemaShape)) : Prop := ∀ f ∈ a, ∃ g ∈ b, f.1 = g.1 ∧ Same checks f.2 g.2

theorem mem_names (h : FieldsWithin checks a b) (hname : name ∈ a.map Prod.fst) : name ∈ b.map Prod.fst := by
  obtain ⟨f, hf, rfl⟩ := List.mem_map.mp hname
  obtain ⟨g, hg, heq, -⟩ := h f hf
  rw [heq]
  exact List.mem_map_of_mem hg

theorem admitsFields_within (h : FieldsWithin checks a b) {get : Units → Wire} (hb : admitsFields checks b get = true) :
    admitsFields checks a get = true := by
  rw [admitsFields_eq, List.all_eq_true] at hb ⊢
  intro f hf
  obtain ⟨g, hg, heq, hsame⟩ := h f hf
  rw [hsame.value, heq]
  exact hb g hg

theorem Same.object (hab : FieldsWithin checks a b) (hba : FieldsWithin checks b a) : Same checks (.object a) (.object b) := by
  refine .of_admits (fun _ => rfl) (fun _ => rfl) rfl rfl fun value => ?_
  have hnames : ∀ name, name ∈ a.map Prod.fst ↔ name ∈ b.map Prod.fst := fun name => ⟨mem_names hab, mem_names hba⟩
  have hcontains : (a.map Prod.fst).contains = (b.map Prod.fst).contains := funext (contains_congr hnames)
  simp only [admits]
  congr 1
  funext listed get
  rw [hcontains]
  congr 1
  rw [Bool.eq_iff_iff]
  exact ⟨admitsFields_within hba, admitsFields_within hab⟩

section
variable (h : List.Forall₂ (Same checks) options others)
include h

theorem any_same (p q : SchemaShape → Bool) (hpq : ∀ s t, Same checks s t → p s = q t) : options.any p = others.any q := by
  induction h with
  | nil => rfl
  | cons hoption _ ih => rw [List.any_cons, List.any_cons, hpq _ _ hoption, ih]

theorem keyValuesOfAll_same : SameNames (keyValuesOfAll options) (keyValuesOfAll others) := by
  induction h with
  | nil => exact sameNames_refl _
  | @cons option other options others hoption _ ih =>
    rw [keyValuesOfAll, keyValuesOfAll]
    obtain ⟨hs, ht⟩ | ⟨a, b, hs, ht, hnames⟩ := sameNames_cases hoption.names
    · rw [hs, ht]
      trivial
    · rw [hs, ht]
      obtain ⟨hms, hmt⟩ | ⟨c, d, hms, hmt, hrest⟩ := sameNames_cases ih
      · rw [hms, hmt]
        trivial
      · rw [hms, hmt]
        intro name
        rw [List.mem_append, List.mem_append, hnames name, hrest name]

theorem Same.union : Same checks (.union options) (.union others) := by
  refine ⟨fun value => ?_, fun key => ?_, keyValuesOfAll_same h⟩
  · rw [admits, admits, someAdmits_eq, someAdmits_eq]
    exact any_same h _ _ fun s t hst => hst.value value
  · rw [admitsKey, admitsKey, someAdmitsKey_eq, someAdmitsKey_eq]
    exact any_same h _ _ fun s t hst => hst.key key

end

/-- Only the set of an enum's values matters. -/
theorem Same.enum {a b : List Units} (h : ∀ value, value ∈ a ↔ value ∈ b) : Same checks (.enum a) (.enum b) := by
  refine ⟨fun value => ?_, fun key => contains_congr h key, ?_⟩
  · rw [admits, admits]
    congr 1
    funext text
    exact contains_congr h text
  · have hempty : a = [] ↔ b = [] := by
      rw [List.eq_nil_iff_forall_not_mem, List.eq_nil_iff_forall_not_mem]
      exact ⟨fun hn x hx => hn x ((h x).mpr hx), fun hn x hx => hn x ((h x).mp hx)⟩
    rw [keyValues, keyValues]
    by_cases ha : a = []
    · rw [if_pos ha, if_pos (hempty.mp ha)]
      trivial
    · rw [if_neg ha, if_neg fun hb => ha (hempty.mpr hb)]
      exact h

/-! ## Shapes of one text -/

def typeName : SchemaShape → String
  | .string _ => "string"
  | .number _ => "number"
  | .boolean => "boolean"
  | .null => "null"
  | .literal _ => "literal"
  | .enum _ => "enum"
  | .array .. => "array"
  | .tuple .. => "tuple"
  | .record .. => "record"
  | .object _ => "object"
  | .optional _ => "optional"
  | .nullable _ => "nullable"
  | .union _ => "union"
  | .token _ => "token"
  | .file _ => "file"

/-- The fields of a shape's value but its type. -/
def shapeParts : SchemaShape → List (String × Json NumberText)
  | .string shape =>
    [ ("format", orNull (fun format => Json.text (StringFormat.text format)) shape.format),
      ("minLength", orNull numberJson shape.minLength),
      ("maxLength", orNull numberJson shape.maxLength), ("pattern", orNull .str shape.pattern),
      ("startsWith", orNull .str shape.startsWith),
      ("endsWith", orNull .str shape.endsWith), ("includes", orNull .str shape.includes) ]
  | .number shape =>
    [ ("int", .bool shape.int), ("min", orNull numberJson shape.min), ("exclusiveMin", .bool shape.exclusiveMin),
      ("max", orNull numberJson shape.max), ("exclusiveMax", .bool shape.exclusiveMax),
      ("multipleOf", orNull numberJson shape.multipleOf) ]
  | .boolean => []
  | .null => []
  | .literal value => [("value", scalarJson value)]
  | .enum values => [("values", .arr (values.map .str))]
  | .array items minItems maxItems =>
    [("items", shapeJson items), ("minItems", orNull numberJson minItems), ("maxItems", orNull numberJson maxItems)]
  | .tuple items rest => [("items", .arr (items.map shapeJson)), ("rest", restJson rest)]
  | .record key value => [("key", shapeJson key), ("value", shapeJson value)]
  | .object fields => [("fields", .obj (fields.map (Prod.map id shapeJson)))]
  | .optional inner => [("inner", shapeJson inner)]
  | .nullable inner => [("inner", shapeJson inner)]
  | .union options => [("options", .arr (options.map shapeJson))]
  | .token purpose => [("purpose", .str purpose)]
  | .file kind => [("kind", .str kind)]

theorem shapeJson_eq (s : SchemaShape) : shapeJson s = Json.object (("type", Json.text (typeName s)) :: shapeParts s) := by
  cases s <;> simp only [shapeJson, shapeJsons_eq, fieldJsons_eq] <;> rfl

theorem nodup_parts (s : SchemaShape) :
    ((("type", (Json.text (typeName s) : Json NumberText)) :: shapeParts s).map Prod.fst).Nodup := by
  cases s <;> simp [shapeParts]

/-- Each field of one shape's value is the other's. -/
theorem part_eq (h : (shapeJson s).normal = (shapeJson t).normal) (name : String) :
    ((("type", Json.text (typeName s)) :: shapeParts s).lookup name).map Json.normal
      = ((("type", Json.text (typeName t)) :: shapeParts t).lookup name).map Json.normal := by
  rw [shapeJson_eq, shapeJson_eq] at h
  exact Json.object_lookup_eq (nodup_parts s) (nodup_parts t) h name

theorem typeName_eq (h : (shapeJson s).normal = (shapeJson t).normal) : typeName s = typeName t := by
  have htype := part_eq h "type"
  rw [List.lookup_cons_self, List.lookup_cons_self, Option.map_some, Option.map_some, Option.some.injEq] at htype
  exact Json.normal_text_inj.mp htype

theorem not_same_text (hne : typeName s ≠ typeName t) (h : (shapeJson s).normal = (shapeJson t).normal) : False :=
  hne (typeName_eq h)

theorem orNull_inj {json : α → Json NumberText} {a b : Option α} (hnull : ∀ x, (json x).normal ≠ .null)
    (hinj : ∀ x y, (json x).normal = (json y).normal → x = y) (h : (orNull json a).normal = (orNull json b).normal) : a = b := by
  match a, b with
  | none, none => rfl
  | none, some y =>
    simp only [orNull, Json.normal] at h
    exact (hnull y h.symm).elim
  | some x, none =>
    simp only [orNull, Json.normal] at h
    exact (hnull x h).elim
  | some x, some y => rw [hinj x y h]

theorem numberJson_inj {M : Type} [Numeral M] {m n : M} (h : (numberJson m).normal = (numberJson n).normal) : m = n := by
  simp only [numberJson, Json.normal, numberText, Json.num.injEq, NumberText.mk.injEq] at h
  exact Numeral.text_inj m n h

theorem orNull_number_inj {M : Type} [Numeral M] {a b : Option M}
    (h : (orNull numberJson a).normal = (orNull numberJson b).normal) : a = b := by
  refine orNull_inj (fun x => ?_) (fun _ _ => numberJson_inj) h
  simp [numberJson, Json.normal]

theorem orNull_str_inj {a b : Option Units} (h : (orNull Json.str a).normal = (orNull Json.str b).normal) : a = b := by
  refine orNull_inj (fun x => ?_) (fun x y hxy => ?_) h
  · simp [Json.normal]
  · simpa [Json.normal] using hxy

theorem formatText_inj {a b : StringFormat} (h : StringFormat.text a = StringFormat.text b) : a = b := by
  cases a <;> cases b <;> first | rfl | exact absurd h (by decide)

theorem orNull_format_inj {a b : Option StringFormat}
    (h : (orNull (fun format => Json.text (StringFormat.text format)) a).normal
      = (orNull (fun format => Json.text (StringFormat.text format)) b).normal) : a = b := by
  refine orNull_inj (fun x => ?_) (fun x y hxy => ?_) h
  · simp [Json.text, Json.normal]
  · exact formatText_inj (Json.normal_text_inj.mp hxy)

theorem scalarJson_inj {a b : Scalar} (h : (scalarJson a).normal = (scalarJson b).normal) : a = b := by
  cases a with
  | text x =>
    cases b with
    | text y => simpa [scalarJson, Json.normal] using h
    | _ => simp [scalarJson, numberJson, Json.normal] at h
  | number x =>
    cases b with
    | number y => rw [numberJson_inj h]
    | _ => simp [scalarJson, numberJson, Json.normal] at h
  | boolean x =>
    cases b with
    | boolean y => simpa [scalarJson, Json.normal] using h
    | _ => simp [scalarJson, numberJson, Json.normal] at h
  | null =>
    cases b with
    | null => rfl
    | _ => simp [scalarJson, numberJson, Json.normal] at h

/-- Values of one normal form, where the shapes of one admit what the shapes of the other do. -/
theorem forall₂_of_normal_eq {shapes : List SchemaShape}
    (hsame : ∀ shape ∈ shapes, ∀ other, (shapeJson shape).normal = (shapeJson other).normal → Same checks shape other)
    (h : (Json.arr (shapes.map shapeJson)).normal = (Json.arr (others.map shapeJson)).normal) :
    List.Forall₂ (Same checks) shapes others := by
  simp only [Json.normal_arr, Json.arr.injEq, List.map_map] at h
  induction shapes generalizing others with
  | nil =>
    cases others with
    | nil => exact .nil
    | cons other rest => simp at h
  | cons shape shapes ih =>
    cases others with
    | nil => simp at h
    | cons other rest =>
      rw [List.map_cons, List.map_cons, List.cons.injEq] at h
      exact .cons (hsame shape List.mem_cons_self other h.1) (ih (fun s hs => hsame s (List.mem_cons_of_mem _ hs)) h.2)

theorem fieldsWithin_of_perm (hsame : ∀ f ∈ a, ∀ g ∈ b, (shapeJson f.2).normal = (shapeJson g.2).normal → Same checks f.2 g.2)
    (h : ((a.map (Prod.map id shapeJson)).map (Prod.map id Json.normal)).Perm
      ((b.map (Prod.map id shapeJson)).map (Prod.map id Json.normal))) :
    FieldsWithin checks a b := by
  intro f hf
  have hmem := h.subset (List.mem_map_of_mem (List.mem_map_of_mem hf))
  obtain ⟨p, hp, heq⟩ := List.mem_map.mp hmem
  obtain ⟨g, hg, rfl⟩ := List.mem_map.mp hp
  obtain ⟨hname, hvalue⟩ := Prod.ext_iff.mp heq
  exact ⟨g, hg, hname.symm, hsame f hf g hg hvalue.symm⟩

theorem enumJson_inj {a b : List Units} (h : (Json.arr (a.map Json.str) : Json NumberText).normal =
      (Json.arr (b.map Json.str)).normal) : a = b := by
  simp only [Json.normal_arr, Json.arr.injEq, List.map_map] at h
  refine List.map_injective_iff.mpr (fun x y hxy => ?_) h
  simpa [Json.normal] using hxy

theorem stringShape_eq {a b : StringShape} (h : (shapeJson (.string a)).normal = (shapeJson (.string b)).normal) : a = b := by
  have hformat := orNull_format_inj (Option.some.inj (part_eq h "format"))
  have hmin := orNull_number_inj (Option.some.inj (part_eq h "minLength"))
  have hmax := orNull_number_inj (Option.some.inj (part_eq h "maxLength"))
  have hpattern := orNull_str_inj (Option.some.inj (part_eq h "pattern"))
  have hstarts := orNull_str_inj (Option.some.inj (part_eq h "startsWith"))
  have hends := orNull_str_inj (Option.some.inj (part_eq h "endsWith"))
  have hincludes := orNull_str_inj (Option.some.inj (part_eq h "includes"))
  cases a
  cases b
  simp_all

theorem numberShape_eq {a b : NumberShape} (h : (shapeJson (.number a)).normal = (shapeJson (.number b)).normal) : a = b := by
  have hint : (Json.bool a.int : Json NumberText) = .bool b.int := Option.some.inj (part_eq h "int")
  have hmin := orNull_number_inj (Option.some.inj (part_eq h "min"))
  have hlow : (Json.bool a.exclusiveMin : Json NumberText) = .bool b.exclusiveMin := Option.some.inj (part_eq h "exclusiveMin")
  have hmax := orNull_number_inj (Option.some.inj (part_eq h "max"))
  have hhigh : (Json.bool a.exclusiveMax : Json NumberText) = .bool b.exclusiveMax := Option.some.inj (part_eq h "exclusiveMax")
  have hstep := orNull_number_inj (Option.some.inj (part_eq h "multipleOf"))
  cases a
  cases b
  simp_all

/-- Two shapes of one text admit the same. -/
theorem same_of_normal_eq (s : SchemaShape) : ∀ t, (shapeJson s).normal = (shapeJson t).normal → Same checks s t := by
  induction s using inductionOn with
  | string shape =>
    intro t h
    cases t with
    | string other => rw [stringShape_eq h]; exact .refl _
    | _ => exact (not_same_text (by simp [typeName]) h).elim
  | number shape =>
    intro t h
    cases t with
    | number other => rw [numberShape_eq h]; exact .refl _
    | _ => exact (not_same_text (by simp [typeName]) h).elim
  | boolean =>
    intro t h
    cases t with
    | boolean => exact .refl _
    | _ => exact (not_same_text (by simp [typeName]) h).elim
  | null =>
    intro t h
    cases t with
    | null => exact .refl _
    | _ => exact (not_same_text (by simp [typeName]) h).elim
  | literal value =>
    intro t h
    cases t with
    | literal other =>
      rw [scalarJson_inj (Option.some.inj (part_eq h "value"))]
      exact .refl _
    | _ => exact (not_same_text (by simp [typeName]) h).elim
  | enum values =>
    intro t h
    cases t with
    | enum others =>
      rw [enumJson_inj (Option.some.inj (part_eq h "values"))]
      exact .refl _
    | _ => exact (not_same_text (by simp [typeName]) h).elim
  | array items minItems maxItems ih =>
    intro t h
    cases t with
    | array others low high =>
      rw [orNull_number_inj (Option.some.inj (part_eq h "minItems")), orNull_number_inj (Option.some.inj (part_eq h "maxItems"))]
      exact (ih others (Option.some.inj (part_eq h "items"))).array low high
    | _ => exact (not_same_text (by simp [typeName]) h).elim
  | tuple items rest ih ihrest =>
    intro t h
    cases t with
    | tuple others other =>
      refine .tuple (forall₂_of_normal_eq ih (Option.some.inj (part_eq h "items"))) ?_
      have hrest : (restJson rest).normal = (restJson other).normal := Option.some.inj (part_eq h "rest")
      have hnull : ∀ shape : SchemaShape, (shapeJson shape).normal ≠ .null := fun shape => by
        simp [shapeJson_eq, Json.object]
      match rest, other with
      | none, none => exact .none
      | none, some shape => exact (hnull shape hrest.symm).elim
      | some shape, none => exact (hnull shape hrest).elim
      | some shape, some other => exact .some (ihrest shape rfl other hrest)
    | _ => exact (not_same_text (by simp [typeName]) h).elim
  | record key value ihkey ihvalue =>
    intro t h
    cases t with
    | record other shape =>
      exact (ihkey other (Option.some.inj (part_eq h "key"))).record (ihvalue shape (Option.some.inj (part_eq h "value")))
    | _ => exact (not_same_text (by simp [typeName]) h).elim
  | object fields ih =>
    intro t h
    cases t with
    | object others =>
      have hperm := Json.fields_perm_of_normal_eq (Option.some.inj (part_eq h "fields"))
      refine .object (fieldsWithin_of_perm (fun f hf g _ => ih f hf g.2) hperm) ?_
      exact fieldsWithin_of_perm (fun f _ g hg hfg => (ih g hg f.2 hfg.symm).symm) hperm.symm
    | _ => exact (not_same_text (by simp [typeName]) h).elim
  | optional inner ih =>
    intro t h
    cases t with
    | optional other => exact (ih other (Option.some.inj (part_eq h "inner"))).optional
    | _ => exact (not_same_text (by simp [typeName]) h).elim
  | nullable inner ih =>
    intro t h
    cases t with
    | nullable other => exact (ih other (Option.some.inj (part_eq h "inner"))).nullable
    | _ => exact (not_same_text (by simp [typeName]) h).elim
  | union options ih =>
    intro t h
    cases t with
    | union others => exact .union (forall₂_of_normal_eq ih (Option.some.inj (part_eq h "options")))
    | _ => exact (not_same_text (by simp [typeName]) h).elim
  | token purpose =>
    intro t h
    cases t with
    | token other => exact .of_admits (fun _ => rfl) (fun _ => rfl) rfl rfl fun _ => rfl
    | _ => exact (not_same_text (by simp [typeName]) h).elim
  | file kind =>
    intro t h
    cases t with
    | file other => exact .of_admits (fun _ => rfl) (fun _ => rfl) rfl rfl fun _ => rfl
    | _ => exact (not_same_text (by simp [typeName]) h).elim

theorem same_of_text (h : canonicalJson s = canonicalJson t) : Same checks s t :=
  same_of_normal_eq s t (Json.canonicalText_eq_iff.mp h)

/-! ## The canonical shape -/

theorem forall₂_canonical {shapes : List SchemaShape} (h : ∀ shape ∈ shapes, Same checks (canonicalShape shape) shape) :
    List.Forall₂ (Same checks) (canonicalShapes shapes) shapes := by
  induction shapes with
  | nil => exact .nil
  | cons shape rest ih => exact .cons (h shape List.mem_cons_self) (ih fun s hs => h s (List.mem_cons_of_mem _ hs))

/-- Sorting an enum's values, wherever it stands in a shape, changes no value the shape admits. -/
theorem same_canonicalShape (s : SchemaShape) : Same checks (canonicalShape s) s := by
  induction s using inductionOn with
  | enum values => exact .enum fun value => (sortOn_perm id values).mem_iff
  | array items minItems maxItems ih => exact ih.array minItems maxItems
  | tuple items rest ih ihrest =>
    refine .tuple (forall₂_canonical ih) ?_
    cases rest with
    | none => exact .none
    | some shape => exact .some (ihrest shape rfl)
  | record key value ihkey ihvalue => exact ihkey.record ihvalue
  | object fields ih =>
    rw [canonicalShape, canonicalFields_eq]
    refine .object (fun f hf => ?_) fun f hf => ?_
    · obtain ⟨g, hg, rfl⟩ := List.mem_map.mp hf
      exact ⟨g, hg, rfl, ih g hg⟩
    · exact ⟨_, List.mem_map_of_mem hf, rfl, (ih f hf).symm⟩
  | optional inner ih => exact ih.optional
  | nullable inner ih => exact ih.nullable
  | union options ih => exact .union (forall₂_canonical ih)
  | _ => exact .refl _

end Fabrika.App.SchemaValues
