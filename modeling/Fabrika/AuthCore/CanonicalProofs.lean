/-
  Fabrika.AuthCore.CanonicalProofs — the digest of a contract covers exactly the contract.

  - `sorts_canonicalizeArtifact`: with its keys sorted, the canonical artifact is the artifact
    with every unordered list sorted; one lemma for each function of contract-canonical.ts;
  - `canonicalArtifactJson_eq_iff`: two contracts have one canonical text exactly when they
    are equal up to the order of keys and of the unordered lists;
  - `idempotent_canonicalizeArtifact`: the canonical form is its own;
  - `digest_covers_contract`: both, over the numbers of JavaScript.
-/

import Fabrika.AuthCore.Canonical
import Fabrika.Lib.Double

namespace Fabrika.AuthCore.Canonical

open Fabrika.Lib Fabrika.Lib.Json

variable {N : Type}

/-! ## Values that fit their place -/

/-- A value of a place's type, its keys distinct and the items of its unordered lists told apart. -/
abbrev Fits (place : Place) (value : Json N) : Prop :=
  contractLayout.Everywhere (fun place value => contractLayout.Apart place value ∧ admits place value) place value

abbrev fieldPlace (place : Place) (fields : List (Units × Json N)) (key : Units) : Place :=
  contractLayout.fieldPlace place fields key

abbrev canon (place : Place) (value : Json N) : Json N := contractLayout.canon place value

/-- With its keys sorted, `f value` is the value sorted, for every value of the place. -/
def Sorts (f : Json N → Json N) (place : Place) : Prop := ∀ value, Fits place value → normal (f value) = canon place value

/-- What fits a place that takes only objects. -/
structure FitsObject (place : Place) (fields : List (Units × Json N)) : Prop where
  nodup : (fields.map Prod.fst).Nodup
  admits : admits place (.obj fields)
  field : ∀ field ∈ fields, Fits (fieldPlace place fields field.1) field.2

variable {place : Place} {fields : List (Units × Json N)} {value : Json N} {type : ShapeType}

theorem Fits.object (h : Fits place (.obj fields)) : FitsObject place fields := by
  cases h with
  | obj h hfields => exact ⟨h.1, h.2, hfields⟩

theorem Fits.null_or_object (hlist : place.isList = false) (hplain : place ≠ .plain) (h : Fits place value) :
    (value = .null ∧ place.isNullable = true) ∨ ∃ fields, value = .obj fields ∧ FitsObject place fields := by
  have hnames : place ≠ .names := by
    rintro rfl
    cases hlist
  cases h with
  | null h => exact .inl ⟨rfl, h.2⟩
  | bool h => exact absurd h.2 (by simp [Canonical.admits, hplain, hnames])
  | num h => exact absurd h.2 (by simp [Canonical.admits, hplain, hnames])
  | str h => exact absurd h.2 (by simp [Canonical.admits, hplain, hnames])
  | arr h _ => exact absurd h.2 (by simp [Canonical.admits, hlist, hplain])
  | obj h hfields => exact .inr ⟨_, rfl, h.1, h.2, hfields⟩

theorem Sorts.of_object {f : Json N → Json N} (hlist : place.isList = false) (hnull : place.isNullable = false)
    (h : ∀ fields, FitsObject place fields → normal (f (.obj fields)) = canon place (.obj fields)) : Sorts f place := by
  intro value hvalue
  have hplain : place ≠ .plain := by
    rintro rfl
    cases hnull
  rcases hvalue.null_or_object hlist hplain with ⟨_, hnullable⟩ | ⟨fields, rfl, hfields⟩
  · rw [hnull] at hnullable
    cases hnullable
  · exact h fields hfields

theorem Sorts.nullOr {place : Place} {f : Json N → Json N} (hlist : place.isList = false) (hplain : place ≠ .plain)
    (h : ∀ fields, FitsObject place fields → normal (f (.obj fields)) = canon place (.obj fields)) : Sorts (nullOr f) place := by
  intro value hvalue
  rcases hvalue.null_or_object hlist hplain with ⟨rfl, _⟩ | ⟨fields, rfl, hfields⟩
  · simp only [Canonical.nullOr, normal, Layout.canon]
  · exact h fields hfields

/-! ## Lists -/

theorem isPlain_plain : contractLayout.IsPlain .plain := ⟨rfl, rfl, fun _ _ => rfl⟩

theorem canon_plain (value : Json N) : canon .plain value = normal value := isPlain_plain.canon_eq value

theorem sorts_sorted : Sorts (sorted : Json N → Json N) .names := by
  intro value hvalue
  cases hvalue with
  | @arr _ xs h _ =>
    have hstrings : ∀ x ∈ xs, ∃ s, x = .str s := h.1
    have hnormal : ∀ {ys : List (Json N)}, (∀ y ∈ ys, ∃ s, y = .str s) → ys.map normal = ys := by
      intro ys hys
      conv_rhs => rw [← List.map_id ys]
      refine List.map_congr_left fun y hy => ?_
      obtain ⟨s, rfl⟩ := hys y hy
      simp only [normal, id]
    have hcanon : xs.map (contractLayout.canon .plain) = xs := by
      rw [← hnormal hstrings]
      simp only [List.map_map]
      refine List.map_congr_left fun x hx => ?_
      obtain ⟨s, rfl⟩ := hstrings x hx
      simp only [Function.comp_apply, normal, Layout.canon]
    rw [sorted, normal_arr, canon, Layout.canon_arr, hnormal fun y hy => hstrings y ((sortOn_perm _ xs).mem_iff.mp hy)]
    show _ = Json.arr (Layout.arrange .byText (xs.map (contractLayout.canon .plain)))
    rw [hcanon]
    rfl
  | obj h _ => cases h.2.1
  | null _ => simp only [sorted, normal, Layout.canon]
  | bool _ => simp only [sorted, normal, Layout.canon]
  | num _ => simp only [sorted, normal, Layout.canon]
  | str _ => simp only [sorted, normal, Layout.canon]

theorem fieldText_normal (h : ∀ fields, value = .obj fields → (fields.map Prod.fst).Nodup) (key : Units) :
    fieldText key (normal value) = fieldText key value := by
  cases value with
  | obj fields =>
    have hkeys : ((fields.map (Prod.map id normal)).map Prod.fst).Nodup := by
      rw [keys_map_normal]
      exact h fields rfl
    rw [normal_obj, fieldText, fieldText, ← Layout.textAt_eq_of_perm hkeys (sortKeys_perm _).symm, textAt, textAt,
      lookup_map_normal]
    cases fields.lookup key with
    | none => rfl
    | some value => cases value <;> simp [textOf?, normal]
  | _ => simp [normal, fieldText]

theorem Fits.nodup (h : Fits place value) (fields : List (Units × Json N)) (he : value = .obj fields) :
    (fields.map Prod.fst).Nodup := by
  subst he
  exact h.object.nodup

theorem sorts_sortedSources : Sorts (sortedSources : Json N → Json N) .sources := by
  intro value hvalue
  cases hvalue with
  | @arr _ xs h hitems =>
    rw [sortedSources, normal_arr, canon, Layout.canon_arr]
    show _ = Json.arr (sortOn (fieldText (codeUnits "origin")) (xs.map (canon .plain)))
    have hmap : xs.map (canon .plain) = xs.map normal := List.map_congr_left fun x _ => canon_plain x
    rw [hmap, map_sortOn (fieldText (codeUnits "origin")) fun x hx => fieldText_normal (Fits.nodup (hitems x hx)) _]
  | obj h _ => cases h.2.1
  | null h => cases h.2
  | bool h => exact absurd h.2 (by simp [admits])
  | num h => exact absurd h.2 (by simp [admits])
  | str h => exact absurd h.2 (by simp [admits])

/-! ## Records and objects -/

theorem fieldPlace_of_value {value : Place} (h : place.value = some value) (fields : List (Units × Json N)) (key : Units) :
    fieldPlace place fields key = value := by
  simp [Layout.fieldPlace, contractLayout, Place.field, h]

theorem sorts_mapValues {value : Place} {f : Json N → Json N} (hvalue : place.value = some value) (hlist : place.isList = false)
    (hnull : place.isNullable = false) (hf : Sorts f value) : Sorts (mapValues f) place := by
  refine Sorts.of_object hlist hnull fun fields hfields => ?_
  rw [mapValues, normal_obj, canon, Layout.canon_obj, List.map_map]
  congr 2
  refine List.map_congr_left fun field hfield => ?_
  have hfit := hfields.field field hfield
  have hplace : contractLayout.fieldPlace place fields field.1 = value := fieldPlace_of_value hvalue fields field.1
  rw [fieldPlace, hplace] at hfit
  rw [hplace]
  exact Prod.ext rfl (hf field.2 hfit)

/-- One field of an object: its name, what is written for it and the place of its value. -/
structure Part (N A : Type) where
  name : String
  map : Json N → A
  place : Place

def spec {A : Type} (parts : List (Part N A)) : List (String × (Json N → A)) := parts.map fun part => (part.name, part.map)

def places {A : Type} (parts : List (Part N A)) : List (String × Place) := parts.map fun part => (part.name, part.place)

theorem lookup_spec {A : Type} (parts : List (Part N A)) (key : Units) :
    ((names (spec parts)).lookup key = none ∧ (names (places parts)).lookup key = none) ∨
    ∃ part ∈ parts, codeUnits part.name = key ∧ (names (spec parts)).lookup key = some part.map ∧
      (names (places parts)).lookup key = some part.place := by
  induction parts with
  | nil => exact .inl ⟨rfl, rfl⟩
  | cons part parts ih =>
    simp only [spec, places, names, List.map_cons, List.lookup_cons] at ih ⊢
    by_cases hk : key = codeUnits part.name
    · refine .inr ⟨part, List.mem_cons_self, hk.symm, ?_, ?_⟩
      · simp [hk]
      · simp [hk]
    · rw [beq_eq_false_iff_ne.mpr hk]
      rcases ih with ih | ⟨other, hmem, hother⟩
      · exact .inl ih
      · exact .inr ⟨other, List.mem_cons_of_mem _ hmem, hother⟩

/-- An object whose listed fields are sorted in place, and whose other fields hold no unordered
    list. -/
theorem normal_update_parts (parts : List (Part N (Json N))) (hvalue : place.value = none)
    (hplaces : place.fields (contractLayout.tagOf place fields) = places parts) (hfields : FitsObject place fields)
    (h : ∀ part ∈ parts, ∀ value, (codeUnits part.name, value) ∈ fields → Fits part.place value →
      normal (part.map value) = canon part.place value) :
    normal (update (spec parts) (.obj fields)) = canon place (.obj fields) := by
  refine Layout.normal_update fun field hfield => ?_
  have hplace : contractLayout.fieldPlace place fields field.1 = ((names (places parts)).lookup field.1).getD .plain := by
    simp [Layout.fieldPlace, contractLayout, Place.field, hvalue, ← hplaces]
  have hfit := hfields.field field hfield
  rw [fieldPlace, hplace] at hfit
  rw [hplace]
  rcases lookup_spec parts field.1 with ⟨hspec, hpl⟩ | ⟨part, hmem, hkey, hspec, hpl⟩
  · rw [hspec, hpl]
    exact (canon_plain field.2).symm
  · rw [hpl] at hfit
    rw [hspec, hpl]
    exact h part hmem field.2 (hkey ▸ hfield) hfit

/-- An object written anew from all the fields its type admits. -/
theorem normal_rebuild_parts (parts : List (Part N (Option (Json N)))) (optional : List String)
    (hnodup : ((names (spec parts)).map Prod.fst).Nodup)
    (hplaces : ∀ part ∈ parts, fieldPlace place fields (codeUnits part.name) = part.place)
    (hoptional : place.optional (contractLayout.tagOf place fields) = some optional)
    (hnames : ∀ name ∈ place.required (contractLayout.tagOf place fields) ++ optional, ∃ part ∈ parts, part.name = name)
    (hfields : FitsObject place fields)
    (h : ∀ part ∈ parts, ∀ value, (codeUnits part.name, value) ∈ fields → Fits part.place value →
      ∃ w, part.map value = some w ∧ normal w = canon part.place value) :
    normal (rebuild (spec parts) (.obj fields)) = canon place (.obj fields) := by
  refine Layout.normal_rebuild hnodup hfields.nodup fun field hfield => ?_
  obtain ⟨-, -, hclosed, -⟩ := hfields.admits
  obtain ⟨name, hname, hkey⟩ := hclosed optional hoptional field.1 (List.mem_map_of_mem hfield)
  obtain ⟨part, hmem, rfl⟩ := hnames name hname
  have hplace := hplaces part hmem
  have hfit := hfields.field field hfield
  rw [← hkey, hplace] at hfit
  obtain ⟨w, hw, hnormal⟩ := h part hmem field.2 (by rw [hkey]; exact hfield) hfit
  refine ⟨part.map, w, ?_, hw, ?_⟩
  · rw [mem_names]
    exact ⟨part.name, hkey, List.mem_map.mpr ⟨part, hmem, rfl⟩⟩
  · rw [hnormal, ← hkey, ← hplace]

/-- What is written for every value of the place, with its keys sorted, is the value sorted. -/
def Writes (write : Json N → Option (Json N)) (place : Place) : Prop :=
  ∀ value, Fits place value → ∃ w, write value = some w ∧ normal w = canon place value

theorem Sorts.written {f : Json N → Json N} {place : Place} (h : Sorts f place) : Writes (written f) place :=
  fun value hfit => ⟨f value, rfl, h value hfit⟩

theorem writes_some : Writes (some : Json N → Option (Json N)) .plain := fun value _ => ⟨value, rfl, (canon_plain value).symm⟩

theorem Sorts.update {place : Place} (parts : List (Part N (Json N))) (hlist : place.isList = false)
    (hnull : place.isNullable = false)
    (hvalue : place.value = none) (hplaces : ∀ tag, place.fields tag = places parts)
    (h : ∀ part ∈ parts, Sorts part.map part.place) :
    Sorts (update (spec parts)) place :=
  .of_object hlist hnull fun _ hfields =>
    normal_update_parts parts hvalue (hplaces _) hfields fun part hpart value _ hfit => h part hpart value hfit

theorem field_codeUnits (hvalue : place.value = none) (tag : Option Units) (name : String) :
    place.field tag (codeUnits name) = ((place.fields tag).lookup name).getD .plain := by
  rw [Place.field, hvalue, lookup_names]

/-- What `normal_rebuild_parts` asks of the names of the parts, at a place without variants. -/
structure Covers {A : Type} (parts : List (Part N A)) (place : Place) (optional : List String) : Prop where
  nodup : (parts.map Part.name).Nodup
  tag : place.tag = none
  value : place.value = none
  places : parts.map (fun part => ((place.fields none).lookup part.name).getD .plain) = parts.map Part.place
  closed : place.optional none = some optional
  covered : ∀ name ∈ place.required none ++ optional, name ∈ parts.map Part.name

theorem nodup_names_spec {A : Type} {parts : List (Part N A)} (h : (parts.map Part.name).Nodup) :
    ((names (spec parts)).map Prod.fst).Nodup := by
  apply nodup_names
  rw [spec, List.map_map]
  exact h

theorem normal_rebuild_of_covers {parts : List (Part N (Option (Json N)))} {optional : List String}
    (hcovers : Covers parts place optional) (hfields : FitsObject place fields)
    (h : ∀ part ∈ parts, ∀ value, (codeUnits part.name, value) ∈ fields → Fits part.place value →
      ∃ w, part.map value = some w ∧ normal w = canon part.place value) :
    normal (rebuild (spec parts) (.obj fields)) = canon place (.obj fields) := by
  have htag : contractLayout.tagOf place fields = none := by
    show place.tag.bind (textAt fields) = none
    rw [hcovers.tag]
    rfl
  refine normal_rebuild_parts parts optional (nodup_names_spec hcovers.nodup) ?_ (by rw [htag, hcovers.closed]) ?_ hfields h
  · intro part hpart
    show place.field (contractLayout.tagOf place fields) (codeUnits part.name) = part.place
    rw [htag, field_codeUnits hcovers.value]
    exact List.map_inj_left.mp hcovers.places part hpart
  · intro name hname
    rw [htag] at hname
    exact List.mem_map.mp (hcovers.covered name hname)

theorem Sorts.rebuild {place : Place} {parts : List (Part N (Option (Json N)))} {optional : List String}
    (hlist : place.isList = false)
    (hnull : place.isNullable = false) (hcovers : Covers parts place optional) (h : ∀ part ∈ parts, Writes part.map part.place) :
    Sorts (rebuild (spec parts)) place :=
  .of_object hlist hnull fun _ hfields => normal_rebuild_of_covers hcovers hfields fun part hpart value _ hfit =>
    h part hpart value hfit

theorem Sorts.rebuild_nullable {parts : List (Part N (Option (Json N)))} {optional : List String} (hlist : place.isList = false)
    (hplain : place ≠ .plain) (hcovers : Covers parts place optional) (h : ∀ part ∈ parts, Writes part.map part.place) :
    Sorts (Canonical.nullOr (Json.rebuild (spec parts))) place :=
  .nullOr hlist hplain fun _ hfields => normal_rebuild_of_covers hcovers hfields fun part hpart value _ hfit =>
    h part hpart value hfit

theorem sorts_canonicalLink : Sorts (canonicalLink : Json N → Json N) .names := by
  intro value hvalue
  rw [← sorts_sorted value hvalue]
  cases value <;> rfl

theorem sorts_canonicalOptionalActions : Sorts (canonicalOptionalActions : Json N → Json N) .names := by
  intro value hvalue
  rw [← sorts_sorted value hvalue]
  cases value <;> rfl

theorem sorts_canonicalActions : Sorts (canonicalActions : Json N → Json N) .names := by
  intro value hvalue
  rw [← sorts_sorted value hvalue]
  cases value <;> rfl

theorem sorts_collection : Sorts (update [("types", sorted), ("link", canonicalLink)] : Json N → Json N) .collection :=
  Sorts.update [⟨"types", sorted, .names⟩, ⟨"link", canonicalLink, .names⟩] rfl rfl rfl (fun _ => rfl) (by
    simp [sorts_sorted, sorts_canonicalLink])

def tableActionParts : List (Part N (Option (Json N))) :=
  [ ⟨"read", written canonicalActions, .names⟩, ⟨"insert", written canonicalOptionalActions, .names⟩,
    ⟨"update", written canonicalOptionalActions, .names⟩, ⟨"delete", written canonicalOptionalActions, .names⟩,
    ⟨"appRead", written sorted, .names⟩, ⟨"appCount", written sorted, .names⟩ ]

theorem covers_tableActionParts : Covers (tableActionParts : List (Part N (Option (Json N)))) .tableActions
    ["appRead", "appCount"] :=
  ⟨by simp [tableActionParts], rfl, rfl, by simp [tableActionParts, Place.fields, List.lookup_cons], rfl,
    by simp [tableActionParts, Place.required]⟩

theorem sorts_canonicalTableActions : Sorts (canonicalTableActions : Json N → Json N) .tableActions :=
  Sorts.rebuild rfl rfl covers_tableActionParts (by
    simp [tableActionParts, sorts_canonicalActions.written, sorts_canonicalOptionalActions.written, sorts_sorted.written])

/-! ## Schema shapes -/

theorem shapeItems_eq (shapes : List (Json N)) : shapeItems shapes = shapes.map canonicalShape := by
  induction shapes with
  | nil => rfl
  | cons shape rest ih => rw [shapeItems, ih, List.map_cons]

section
variable (fields : List (Units × Json N))

theorem shapeFields_eq : shapeFields fields = fields.map fun field => (field.1, canonicalShape field.2) := by
  induction fields with
  | nil => rfl
  | cons field rest ih => rw [shapeFields, ih, List.map_cons]

theorem listFields_eq : listFields fields = fields.map fun field => (field.1, canonicalShapes field.2) := by
  induction fields with
  | nil => rfl
  | cons field rest ih => rw [listFields, ih, List.map_cons]

theorem recordFields_eq : recordFields fields = fields.map fun field => (field.1, canonicalShapeRecord field.2) := by
  induction fields with
  | nil => rfl
  | cons field rest ih => rw [recordFields, ih, List.map_cons]

theorem shapeOfItems_eq :
    shapeOfItems fields = fields.map fun field =>
    (field.1, ((names [("items", canonicalShape)]).lookup field.1).getD id field.2) := by
  induction fields with
  | nil => rfl
  | cons field rest ih =>
    obtain ⟨name, value⟩ := field
    rw [shapeOfItems, ih, List.map_cons]
    by_cases h : name = codeUnits "items"
    · simp [h, names]
    · simp [h, names, List.lookup_cons, beq_eq_false_iff_ne.mpr h]

end

theorem lookup_map_value (f : Json N → Json N) (fields : List (Units × Json N)) (key : Units) :
    (fields.map fun field => (field.1, f field.2)).lookup key = (fields.lookup key).map f := by
  induction fields with
  | nil => rfl
  | cons field rest ih =>
    obtain ⟨name, value⟩ := field
    simp only [List.map_cons, List.lookup_cons]
    cases key == name with
    | true => rfl
    | false => exact ih

theorem entry_eq (fields : List (Units × Json N)) (name : String) :
    entry fields name = rebuildFields [(codeUnits name, some)] fields := by
  simp [entry, rebuildFields]

theorem entry_map (f : Json N → Json N) (fields : List (Units × Json N)) (name : String) :
    entry (fields.map fun field => (field.1, f field.2)) name = rebuildFields [(codeUnits name, written f)] fields := by
  rw [entry, lookup_map_value]
  simp only [rebuildFields, List.flatMap_cons, List.flatMap_nil, List.append_nil]
  cases fields.lookup (codeUnits name) with
  | none => rfl
  | some value => rfl

theorem rebuildFields_append (first second : List (Units × (Json N → Option (Json N)))) (fields : List (Units × Json N)) :
    rebuildFields (first ++ second) fields = rebuildFields first fields ++ rebuildFields second fields := List.flatMap_append

/-- The fields of a shape that the code writes anew. -/
def shapeParts : ShapeType → List (Part N (Option (Json N)))
  | .enum => [⟨"type", some, .plain⟩, ⟨"values", written sorted, .names⟩]
  | .tuple => [⟨"type", some, .plain⟩, ⟨"items", written canonicalShapes, .shapes⟩, ⟨"rest", written canonicalShape, .shape⟩]
  | .record => [⟨"type", some, .plain⟩, ⟨"key", written canonicalShape, .shape⟩, ⟨"value", written canonicalShape, .shape⟩]
  | .object => [⟨"type", some, .plain⟩, ⟨"fields", written canonicalShapeRecord, .shapeRecord⟩]
  | .wrapper => [⟨"type", some, .plain⟩, ⟨"inner", written canonicalShape, .shape⟩]
  | .union => [⟨"type", some, .plain⟩, ⟨"options", written canonicalShapes, .shapes⟩]
  | .array => []
  | .other => []

theorem canonicalShape_obj (fields : List (Units × Json N)) :
    canonicalShape (.obj fields) = match shapeType (textAt fields (codeUnits "type")) with
      | .array => update [("items", canonicalShape)] (.obj fields)
      | .other => .obj fields
      | type => rebuild (spec (shapeParts type)) (.obj fields) := by
  rw [canonicalShape]
  simp only [shapeFields_eq, listFields_eq, recordFields_eq, shapeOfItems_eq, entry_map]
  simp only [entry_eq, ← rebuildFields_append]
  cases shapeType (textAt fields (codeUnits "type")) <;> rfl

theorem shapeParts_names {type : Option Units} (harray : shapeType type ≠ .array) (hother : shapeType type ≠ .other) :
    ((shapeParts (shapeType type) : List (Part N (Option (Json N)))).map Part.name).Nodup ∧
    (shapeParts (shapeType type) : List (Part N (Option (Json N)))).map Part.name = Place.requiredOfShape type ∧
    (shapeParts (shapeType type) : List (Part N (Option (Json N)))).map (fun part =>
      ((Place.shapeFields type).lookup part.name).getD .plain)
      = (shapeParts (shapeType type) : List (Part N (Option (Json N)))).map Part.place := by
  unfold Place.requiredOfShape Place.shapeFields
  cases hcase : shapeType type <;> simp_all [shapeParts, List.lookup_cons]

/-- The three ways the code canonicalizes shapes: one, a list and a record of them. -/
structure SortsShapes (value : Json N) : Prop where
  shape : Fits .shape value → normal (canonicalShape value) = canon .shape value
  list : Fits .shapes value → normal (canonicalShapes value) = canon .shapes value
  record : Fits .shapeRecord value → normal (canonicalShapeRecord value) = canon .shapeRecord value

theorem sorts_shapeParts (h : SortsShapes value) {part : Part N (Option (Json N))} (hpart : part ∈ shapeParts type)
    (hfit : Fits part.place value) : ∃ w, part.map value = some w ∧ normal w = canon part.place value := by
  have hshape : Fits .shape value → ∃ w, written canonicalShape value = some w ∧ normal w = canon .shape value :=
    fun hfit => ⟨_, rfl, h.shape hfit⟩
  have hlist : Fits .shapes value → ∃ w, written canonicalShapes value = some w ∧ normal w = canon .shapes value :=
    fun hfit => ⟨_, rfl, h.list hfit⟩
  have hrecord : Fits .shapeRecord value → ∃ w, written canonicalShapeRecord value = some w ∧
      normal w = canon .shapeRecord value :=
    fun hfit => ⟨_, rfl, h.record hfit⟩
  cases type <;> simp only [shapeParts, List.mem_cons, List.not_mem_nil, or_false] at hpart
  case enum =>
    rcases hpart with rfl | rfl
    · exact writes_some value hfit
    · exact sorts_sorted.written value hfit
  case tuple =>
    rcases hpart with rfl | rfl | rfl
    · exact writes_some value hfit
    · exact hlist hfit
    · exact hshape hfit
  case record =>
    rcases hpart with rfl | rfl | rfl
    · exact writes_some value hfit
    · exact hshape hfit
    · exact hshape hfit
  case object =>
    rcases hpart with rfl | rfl
    · exact writes_some value hfit
    · exact hrecord hfit
  case wrapper =>
    rcases hpart with rfl | rfl
    · exact writes_some value hfit
    · exact hshape hfit
  case union =>
    rcases hpart with rfl | rfl
    · exact writes_some value hfit
    · exact hlist hfit

theorem normal_canonicalShape_obj (hfields : FitsObject .shape fields) (h : ∀ field ∈ fields, SortsShapes field.2) :
    normal (canonicalShape (.obj fields)) = canon .shape (.obj fields) := by
  have htag : contractLayout.tagOf .shape fields = textAt fields (codeUnits "type") := rfl
  rw [canonicalShape_obj]
  split
  · rename_i hcase
    refine normal_update_parts [⟨"items", canonicalShape, .shape⟩] rfl ?_ hfields fun part hpart value hmem hfit => ?_
    · rw [htag]
      simp [Place.fields, Place.shapeFields, hcase, places]
    · rw [List.mem_singleton.mp hpart] at hfit ⊢
      exact (h _ hmem).shape hfit
  · rename_i hcase
    have hfields : normal (update (spec []) (.obj fields)) = canon .shape (.obj fields) :=
      normal_update_parts [] rfl (by rw [htag]; simp [Place.fields, Place.shapeFields, hcase, places]) hfields (by simp)
    simpa [update, spec, names] using hfields
  · rename_i harray hother
    obtain ⟨hnodup, hnames, hplaces⟩ := shapeParts_names (N := N) harray hother
    refine normal_rebuild_parts _ [] (nodup_names_spec hnodup) ?_ ?_ ?_ hfields fun part hpart value hmem hfit =>
      sorts_shapeParts (h _ hmem) hpart hfit
    · intro part hpart
      show Place.field .shape (contractLayout.tagOf .shape fields) (codeUnits part.name) = part.place
      rw [htag, field_codeUnits rfl]
      exact List.map_inj_left.mp hplaces part hpart
    · rw [htag]
      exact if_neg (not_or.mpr ⟨harray, hother⟩)
    · intro name hname
      rw [htag, List.append_nil] at hname
      exact List.mem_map.mp (hnames ▸ hname)

theorem sortsShapes (value : Json N) : SortsShapes value := by
  induction value using Json.inductionOn with
  | arr xs ih =>
    refine ⟨fun hfit => ?_, fun hfit => ?_, fun hfit => ?_⟩
    · rcases Fits.null_or_object rfl (by simp) hfit with ⟨he, _⟩ | ⟨_, he, _⟩ <;> cases he
    · cases hfit with
      | arr _ hitems =>
        rw [canonicalShapes, shapeItems_eq, normal_arr, canon, Layout.canon_arr, List.map_map]
        show _ = Json.arr (xs.map (canon .shape))
        congr 1
        exact List.map_congr_left fun x hx => (ih x hx).shape (hitems x hx)
    · rcases Fits.null_or_object rfl (by simp) hfit with ⟨he, _⟩ | ⟨_, he, _⟩ <;> cases he
  | obj fields ih =>
    refine ⟨fun hfit => normal_canonicalShape_obj hfit.object ih, fun hfit => ?_, fun hfit => ?_⟩
    · cases hfit.object.admits.1
    · rw [canonicalShapeRecord, shapeFields_eq]
      have hrecord : normal (mapValues canonicalShape (.obj fields)) = canon .shapeRecord (.obj fields) := by
        rw [mapValues, normal_obj, canon, Layout.canon_obj, List.map_map]
        congr 2
        refine List.map_congr_left fun field hfield => ?_
        exact Prod.ext rfl ((ih field hfield).shape (hfit.object.field field hfield))
      exact hrecord
  | _ =>
    refine ⟨fun hfit => ?_, fun hfit => ?_, fun hfit => ?_⟩ <;>
      simp only [canonicalShape, canonicalShapes, canonicalShapeRecord, normal, Layout.canon]

theorem sorts_canonicalShape : Sorts (canonicalShape : Json N → Json N) .shape := fun value => (sortsShapes value).shape

/-! ## Outputs -/

theorem reads_obj (fields : List (Units × Json N)) (key text : String) :
    reads (.obj fields) key text = true ↔ textAt fields (codeUnits key) = some (codeUnits text) := by
  simp [reads]

def columnParts : List (Part N (Option (Json N))) := [⟨"name", some, .plain⟩, ⟨"shape", written canonicalShape, .shape⟩]

theorem covers_columnParts : Covers (columnParts : List (Part N (Option (Json N)))) .column [] :=
  ⟨by simp [columnParts], rfl, rfl, by simp [columnParts, Place.fields, List.lookup_cons], rfl,
    by simp [columnParts, Place.required]⟩

theorem sorts_column : Sorts (rebuild [("name", some), ("shape", written canonicalShape)] : Json N → Json N) .column :=
  Sorts.rebuild rfl rfl covers_columnParts (by simp [columnParts, writes_some, sorts_canonicalShape.written])

/-- What fits a place that takes only lists. -/
theorem Fits.list (hlist : place.isList = true) (hnames : place ≠ .names) (h : Fits place value) :
    ∃ items, value = .arr items ∧ ∀ item ∈ items, Fits place.item item := by
  have hplain : place ≠ .plain := by
    rintro rfl
    cases hlist
  have hnull : place.isNullable = false := by
    cases place <;> first | rfl | exact absurd rfl hnames | cases hlist
  cases h with
  | arr _ hitems => exact ⟨_, rfl, hitems⟩
  | obj h _ =>
    have hobject := h.2.1
    rw [hlist] at hobject
    cases hobject
  | null h =>
    have hnullable := h.2
    rw [admits, hnull] at hnullable
    cases hnullable
  | bool h => exact absurd h.2 (by simp [admits, hplain, hnames])
  | num h => exact absurd h.2 (by simp [admits, hplain, hnames])
  | str h => exact absurd h.2 (by simp [admits, hplain, hnames])

theorem sorts_canonicalColumns : Sorts (canonicalColumns : Json N → Json N) .columns := by
  intro value hvalue
  obtain ⟨columns, rfl, hcolumns⟩ := Fits.list rfl (by simp) hvalue
  rw [canonicalColumns, normal_arr, canon, Layout.canon_arr, List.map_map]
  show _ = Json.arr (columns.map (canon .column))
  congr 1
  exact List.map_congr_left fun column hcolumn => sorts_column column (hcolumns column hcolumn)

/-- An output that is neither a redirect nor a file of rows is a shape. -/
theorem FitsObject.shape_of_output (h : FitsObject .output fields)
    (hredirect : textAt fields (codeUnits "type") ≠ some (codeUnits "redirect"))
    (hattachment : textAt fields (codeUnits "type") ≠ some (codeUnits "attachment")) :
    FitsObject .shape fields ∧ fieldPlace .output fields = fieldPlace .shape fields := by
  have htag : contractLayout.tagOf .output fields = textAt fields (codeUnits "type") := rfl
  have htagShape : contractLayout.tagOf .shape fields = textAt fields (codeUnits "type") := rfl
  have hfieldsOf : Place.outputFields (textAt fields (codeUnits "type")) =
      Place.shapeFields (textAt fields (codeUnits "type")) := by
    simp [Place.outputFields, hredirect, hattachment]
  have hplace : fieldPlace .output fields = fieldPlace .shape fields := by
    funext key
    show Place.field .output (contractLayout.tagOf .output fields) key =
        Place.field .shape (contractLayout.tagOf .shape fields) key
    rw [htag, htagShape]
    show ((names (Place.outputFields _)).lookup key).getD .plain = ((names (Place.shapeFields _)).lookup key).getD .plain
    rw [hfieldsOf]
  obtain ⟨hnodup, ⟨_, hrequired, hclosed, _, _⟩, hfields⟩ := h
  refine ⟨⟨hnodup, ⟨rfl, ?_, ?_, nofun, nofun⟩, fun field hfield => ?_⟩, hplace⟩
  · rw [htagShape]
    rw [htag] at hrequired
    simpa [Place.required, Place.requiredOfShape, hfieldsOf] using hrequired
  · rw [htagShape]
    rw [htag] at hclosed
    simpa [Place.required, Place.optional, Place.requiredOfShape, hfieldsOf, hredirect, hattachment] using hclosed
  · have hfit := hfields field hfield
    rwa [hplace] at hfit

def redirectParts : List (Part N (Option (Json N))) := [⟨"type", some, .plain⟩, ⟨"origins", written sorted, .names⟩]

theorem normal_canonicalOutput_obj (hfields : FitsObject .output fields) :
    normal (canonicalOutput (.obj fields)) = canon .output (.obj fields) := by
  have htag : contractLayout.tagOf .output fields = textAt fields (codeUnits "type") := rfl
  unfold canonicalOutput
  split
  · rename_i hredirect
    rw [reads_obj] at hredirect
    refine normal_rebuild_parts redirectParts [] (nodup_names_spec (by simp [redirectParts])) ?_ ?_ ?_ hfields ?_
    · intro part hpart
      show Place.field .output (contractLayout.tagOf .output fields) (codeUnits part.name) = part.place
      rw [htag, hredirect, field_codeUnits rfl]
      simp only [redirectParts, List.mem_cons, List.not_mem_nil, or_false] at hpart
      rcases hpart with rfl | rfl <;> simp [Place.fields, Place.outputFields, List.lookup_cons]
    · rw [htag, hredirect]
      decide
    · rw [htag, hredirect]
      simp [Place.required, Place.outputFields, redirectParts]
    · intro part hpart value _ hfit
      simp only [redirectParts, List.mem_cons, List.not_mem_nil, or_false] at hpart
      rcases hpart with rfl | rfl
      · exact writes_some value hfit
      · exact sorts_sorted.written value hfit
  · rename_i hredirect
    rw [reads_obj] at hredirect
    split
    · rename_i hattachment
      rw [reads_obj] at hattachment
      refine normal_update_parts [⟨"columns", canonicalColumns, .columns⟩] rfl ?_ hfields fun part hpart value _ hfit => ?_
      · rw [htag, hattachment]
        show Place.fields .output _ = [("columns", Place.columns)]
        decide
      · rw [List.mem_singleton.mp hpart] at hfit ⊢
        exact sorts_canonicalColumns value hfit
    · rename_i hattachment
      rw [reads_obj] at hattachment
      obtain ⟨hshape, hplace⟩ := hfields.shape_of_output hredirect hattachment
      have hcanon : canon .output (.obj fields) = canon .shape (.obj fields) := by
        rw [canon, canon, Layout.canon_obj, Layout.canon_obj]
        have hplace : contractLayout.fieldPlace .output fields = contractLayout.fieldPlace .shape fields := hplace
        rw [hplace]
      rw [hcanon]
      exact normal_canonicalShape_obj hshape fun field _ => sortsShapes field.2

/-! ## Endpoints -/

theorem sorts_sortedTuple : Sorts (sortedTuple : Json N → Json N) .names := sorts_sorted

def admissionParts : List (Part N (Option (Json N))) :=
  [⟨"contentTypes", written sortedTuple, .names⟩, ⟨"maxBytes", some, .plain⟩]

theorem covers_admissionParts : Covers (admissionParts : List (Part N (Option (Json N)))) .admission [] :=
  ⟨by simp [admissionParts], rfl, rfl, by simp [admissionParts, Place.fields, List.lookup_cons], rfl,
    by simp [admissionParts, Place.required]⟩

theorem sorts_admission : Sorts (nullOr canonicalAdmission : Json N → Json N) .admission :=
  Sorts.rebuild_nullable rfl (by simp) covers_admissionParts (by simp [admissionParts, writes_some, sorts_sortedTuple.written])

theorem sorts_input : Sorts (nullOr canonicalShape : Json N → Json N) .shape :=
  Sorts.nullOr rfl (by simp) fun _ hfields => normal_canonicalShape_obj hfields fun field _ => sortsShapes field.2

theorem sorts_output : Sorts (nullOr canonicalOutput : Json N → Json N) .output :=
  Sorts.nullOr rfl (by simp) fun _ hfields => normal_canonicalOutput_obj hfields

def endpointParts (callers : Json N → Json N) : List (Part N (Json N)) :=
  [ ⟨"admission", nullOr canonicalAdmission, .admission⟩, ⟨"input", nullOr canonicalShape, .shape⟩,
    ⟨"output", nullOr canonicalOutput, .output⟩, ⟨"callers", callers, .names⟩ ]

theorem normal_endpointParts (callers : Json N → Json N) (hfields : FitsObject .endpoint fields)
    (hcallers : ∀ value, (codeUnits "callers", value) ∈ fields → Fits .names value →
      normal (callers value) = canon .names value) :
    normal (update (spec (endpointParts callers)) (.obj fields)) = canon .endpoint (.obj fields) := by
  refine normal_update_parts (endpointParts callers) rfl rfl hfields fun part hpart value hmem hfit => ?_
  simp only [endpointParts, List.mem_cons, List.not_mem_nil, or_false] at hpart
  rcases hpart with rfl | rfl | rfl | rfl
  · exact sorts_admission value hfit
  · exact sorts_input value hfit
  · exact sorts_output value hfit
  · exact hcallers value hmem hfit

theorem update_callers_id (fields : List (Units × Json N)) :
    update (spec (endpointParts id)) (.obj fields) = update (spec ((endpointParts id).take 3)) (.obj fields) := by
  simp only [update, Json.obj.injEq]
  refine List.map_congr_left fun field _ => ?_
  simp only [spec, endpointParts, names, List.map_cons, List.map_nil, List.take_succ_cons, List.take_zero, List.lookup_cons,
    List.lookup_nil]
  split
  · rfl
  split
  · rfl
  split
  · rfl
  split
  · rfl
  · rfl

theorem sorts_canonicalizeEndpoint : Sorts (canonicalizeEndpoint : Json N → Json N) .endpoint := by
  refine Sorts.of_object rfl rfl fun fields hfields => ?_
  unfold canonicalizeEndpoint
  dsimp only
  split
  · rename_i hnull
    -- An anonymous row has no callers, so leaving them as they are sorts them.
    have hcallers := hfields.admits.2.2.2.2 rfl hnull
    have hrow := normal_endpointParts id hfields (by
      intro value hmem _
      have hvalue := (lookup_eq_some_iff hfields.nodup).mpr hmem
      rw [hcallers] at hvalue
      cases hvalue
      simp only [id, normal_arr, canon, Layout.canon_arr]
      rfl)
    rw [update_callers_id] at hrow
    exact hrow
  · exact normal_endpointParts sortedTuple hfields fun value _ hfit => sorts_sorted value hfit

theorem nodup_update {spec : List (String × (Json N → Json N))} (h : (fields.map Prod.fst).Nodup)
    {others : List (Units × Json N)} (he : update spec (.obj fields) = .obj others) : (others.map Prod.fst).Nodup := by
  cases he
  rw [List.map_map]
  exact h

theorem nodup_canonicalizeEndpoint {row : Json N} (h : Fits .endpoint row) (fields : List (Units × Json N))
    (he : canonicalizeEndpoint row = .obj fields) : (fields.map Prod.fst).Nodup := by
  cases row with
  | obj others =>
    unfold canonicalizeEndpoint at he
    dsimp only at he
    split at he
    · exact nodup_update h.object.nodup he
    · exact nodup_update h.object.nodup he
  | _ => cases he

theorem sorts_canonicalizeEndpoints : Sorts (canonicalizeEndpoints : Json N → Json N) .endpoints := by
  intro value hvalue
  obtain ⟨rows, rfl, hrows⟩ := Fits.list rfl (by simp) hvalue
  rw [canonicalizeEndpoints, normal_arr, canon, Layout.canon_arr]
  show _ = Json.arr (sortOn (fieldText (codeUnits "id")) (rows.map (canon .endpoint)))
  rw [map_sortOn (fieldText (codeUnits "id"))]
  · rw [List.map_map]
    have hrows : rows.map (normal ∘ canonicalizeEndpoint) = rows.map (canon .endpoint) :=
      List.map_congr_left fun row hrow => sorts_canonicalizeEndpoint row (hrows row hrow)
    rw [hrows]
  · intro row hrow
    obtain ⟨original, horiginal, rfl⟩ := List.mem_map.mp hrow
    exact fieldText_normal (nodup_canonicalizeEndpoint (hrows original horiginal)) _

/-! ## Roles, mounts and tables -/

def membershipParts : List (Part N (Option (Json N))) := [⟨"scope", some, .plain⟩, ⟨"assignableBy", written sorted, .names⟩]

theorem covers_membershipParts : Covers (membershipParts : List (Part N (Option (Json N)))) .membership [] :=
  ⟨by simp [membershipParts], rfl, rfl, by simp [membershipParts, Place.fields, List.lookup_cons], rfl,
    by simp [membershipParts, Place.required]⟩

theorem sorts_member : Sorts (nullOr canonicalMembership : Json N → Json N) .membership :=
  Sorts.rebuild_nullable rfl (by simp) covers_membershipParts (by simp [membershipParts, writes_some, sorts_sorted.written])

def roleParts : List (Part N (Option (Json N))) :=
  [ ⟨"grants", written sorted, .names⟩, ⟨"member", written (nullOr canonicalMembership), .membership⟩,
    ⟨"external", writtenIfTrue, .plain⟩ ]

theorem covers_roleParts : Covers (roleParts : List (Part N (Option (Json N)))) .role ["external"] :=
  ⟨by simp [roleParts], rfl, rfl, by simp [roleParts, Place.fields, List.lookup_cons], rfl, by simp [roleParts, Place.required]⟩

theorem sorts_canonicalRole : Sorts (canonicalRole : Json N → Json N) .role := by
  refine Sorts.of_object rfl rfl fun fields hfields => normal_rebuild_of_covers covers_roleParts hfields ?_
  intro part hpart value hmem hfit
  simp only [roleParts, List.mem_cons, List.not_mem_nil, or_false] at hpart
  rcases hpart with rfl | rfl | rfl
  · exact sorts_sorted.written value hfit
  · exact sorts_member.written value hfit
  · -- `external` is `true` wherever it is declared.
    have htrue := hfields.admits.2.2.2.1 rfl value ((lookup_eq_some_iff hfields.nodup).mpr hmem)
    rw [htrue]
    exact ⟨.bool true, rfl, (canon_plain _).symm⟩

/-- One list of names sorted in place, in a variant of an object. -/
theorem normal_update_names {name : String} (hvalue : place.value = none)
    (hplaces : place.fields (contractLayout.tagOf place fields) = [(name, .names)]) (hfields : FitsObject place fields) :
    normal (update [(name, sorted)] (.obj fields)) = canon place (.obj fields) := by
  refine normal_update_parts [⟨name, sorted, .names⟩] hvalue hplaces hfields fun part hpart value _ hfit => ?_
  rw [List.mem_singleton.mp hpart] at hfit ⊢
  exact sorts_sorted value hfit

/-- A variant of an object without unordered lists. -/
theorem normal_of_no_fields (hvalue : place.value = none) (hplaces : place.fields (contractLayout.tagOf place fields) = [])
    (hfields : FitsObject place fields) : normal (.obj fields) = canon place (.obj fields) := by
  have hupdate : normal (update (spec []) (.obj fields)) = canon place (.obj fields) :=
    normal_update_parts [] hvalue hplaces hfields (by simp)
  simpa [update, spec, names] using hupdate

theorem sorts_canonicalMount : Sorts (canonicalMount : Json N → Json N) .mount := by
  refine Sorts.of_object rfl rfl fun fields hfields => ?_
  have htag : contractLayout.tagOf .mount fields = textAt fields (codeUnits "kind") := rfl
  unfold canonicalMount
  split
  · rename_i hrpc
    rw [reads_obj] at hrpc
    exact normal_update_names rfl (by rw [htag, hrpc]; decide) hfields
  split
  · rename_i _ hlink
    rw [reads_obj] at hlink
    exact normal_update_names rfl (by rw [htag, hlink]; decide) hfields
  split
  · rename_i _ _ hwebhook
    rw [reads_obj] at hwebhook
    exact normal_update_names rfl (by rw [htag, hwebhook]; decide) hfields
  split
  · rename_i _ _ _ hspa
    rw [reads_obj] at hspa
    exact normal_update_names rfl (by rw [htag, hspa]; decide) hfields
  · rename_i hrpc hlink hwebhook hspa
    rw [reads_obj] at hrpc hlink hwebhook hspa
    exact normal_of_no_fields rfl (by rw [htag]; simp [Place.fields, Place.mountFields, hrpc, hlink, hwebhook, hspa]) hfields

theorem sorts_canonicalTableScope : Sorts (canonicalTableScope : Json N → Json N) .tableScope := by
  refine Sorts.of_object rfl rfl fun fields hfields => ?_
  have htag : contractLayout.tagOf .tableScope fields = textAt fields (codeUnits "mode") := rfl
  unfold canonicalTableScope
  split
  · rename_i hchild
    rw [reads_obj] at hchild
    exact normal_update_names rfl (by rw [htag, hchild]; decide) hfields
  · rename_i hchild
    rw [reads_obj] at hchild
    exact normal_of_no_fields rfl (by rw [htag]; simp [Place.fields, hchild]) hfields

theorem sorts_canonicalTable : Sorts (canonicalTable : Json N → Json N) .table :=
  Sorts.update
    [ ⟨"actions", canonicalTableActions, .tableActions⟩, ⟨"scope", canonicalTableScope, .tableScope⟩, ⟨"insert", sorted, .names⟩,
      ⟨"update", sorted, .names⟩ ] rfl rfl rfl (fun _ => rfl)
    (by simp [sorts_canonicalTableActions, sorts_canonicalTableScope, sorts_sorted])

/-! ## The artifact -/

def cspParts : List (Part N (Option (Json N))) :=
  [ ⟨"connectSrc", written sortedSources, .sources⟩, ⟨"imgSrc", written sortedSources, .sources⟩,
    ⟨"frameAncestors", written sortedSources, .sources⟩, ⟨"scriptSrc", written sortedSources, .sources⟩,
    ⟨"frameSrc", written sortedSources, .sources⟩, ⟨"styleSrc", written sortedSources, .sources⟩,
    ⟨"fontSrc", written sortedSources, .sources⟩, ⟨"workerSrc", written sortedSources, .sources⟩ ]

theorem covers_cspParts :
    Covers (cspParts : List (Part N (Option (Json N)))) .csp ["scriptSrc", "frameSrc", "styleSrc", "fontSrc", "workerSrc"] :=
  ⟨by simp [cspParts], rfl, rfl, by simp [cspParts, Place.fields, List.lookup_cons], rfl, by simp [cspParts, Place.required]⟩

theorem sorts_canonicalCsp : Sorts (canonicalCsp : Json N → Json N) .csp :=
  Sorts.rebuild rfl rfl covers_cspParts (by simp [cspParts, sorts_sortedSources.written])

theorem sorts_canonicalReach : Sorts (canonicalReach : Json N → Json N) .reach :=
  Sorts.update
    [ ⟨"connect", sorted, .names⟩, ⟨"actions", sorted, .names⟩, ⟨"kicks", sorted, .names⟩, ⟨"signs", sorted, .names⟩,
      ⟨"egress", sorted, .names⟩ ] rfl rfl rfl (fun _ => rfl) (by simp [sorts_sorted])

theorem sorts_fileKind : Sorts (update [("types", sorted)] : Json N → Json N) .fileKind :=
  Sorts.update [⟨"types", sorted, .names⟩] rfl rfl rfl (fun _ => rfl) (by simp [sorts_sorted])

theorem sorts_job : Sorts (update [("actions", sorted)] : Json N → Json N) .job :=
  Sorts.update [⟨"actions", sorted, .names⟩] rfl rfl rfl (fun _ => rfl) (by simp [sorts_sorted])

theorem sorts_exported : Sorts (update [("consumers", sorted)] : Json N → Json N) .exported :=
  Sorts.update [⟨"consumers", sorted, .names⟩] rfl rfl rfl (fun _ => rfl) (by simp [sorts_sorted])

theorem sorts_imported : Sorts (update [("procedures", sorted), ("usedBy", sorted)] : Json N → Json N) .imported :=
  Sorts.update [⟨"procedures", sorted, .names⟩, ⟨"usedBy", sorted, .names⟩] rfl rfl rfl (fun _ => rfl) (by simp [sorts_sorted])

theorem sorts_procedure : Sorts (update [("query", canonicalShape)] : Json N → Json N) .procedure :=
  Sorts.update [⟨"query", canonicalShape, .shape⟩] rfl rfl rfl (fun _ => rfl) (by simp [sorts_canonicalShape])

def tokenParts : List (Part N (Option (Json N))) := [⟨"claims", written canonicalShape, .shape⟩, ⟨"maxDays", some, .plain⟩]

theorem covers_tokenParts : Covers (tokenParts : List (Part N (Option (Json N)))) .token [] :=
  ⟨by simp [tokenParts], rfl, rfl, by simp [tokenParts, Place.fields, List.lookup_cons], rfl,
    by simp [tokenParts, Place.required]⟩

theorem sorts_token : Sorts (rebuild [("claims", written canonicalShape), ("maxDays", some)] : Json N → Json N) .token :=
  Sorts.rebuild rfl rfl covers_tokenParts (by simp [tokenParts, writes_some, sorts_canonicalShape.written])

def terminalParts : List (Part N (Option (Json N))) := [⟨"identify", some, .plain⟩]

theorem covers_terminalParts : Covers (terminalParts : List (Part N (Option (Json N)))) .terminal [] :=
  ⟨by simp [terminalParts], rfl, rfl, by simp [terminalParts, Place.fields], rfl, by simp [terminalParts, Place.required]⟩

theorem sorts_terminal : Sorts (rebuild [("identify", some)] : Json N → Json N) .terminal :=
  Sorts.rebuild rfl rfl covers_terminalParts (by simp [terminalParts, writes_some])

def artifactParts : List (Part N (Option (Json N))) :=
  [ ⟨"format", some, .plain⟩, ⟨"app", some, .plain⟩, ⟨"dimensions", some, .plain⟩, ⟨"actions", some, .plain⟩,
    ⟨"roles", written (mapValues canonicalRole), .roles⟩,
    ⟨"mounts", written (mapValues canonicalMount), .mounts⟩,
    ⟨"files", written (mapValues (update [("types", sorted), ("link", canonicalLink)])), .collections⟩,
    ⟨"fileKinds", written (mapValues (update [("types", sorted)])), .fileKinds⟩,
    ⟨"jobs", written (mapValues (update [("actions", sorted)])), .jobs⟩,
    ⟨"exports", written (mapValues (update [("consumers", sorted)])), .exports⟩,
    ⟨"imports", written (mapValues (update [("procedures", sorted), ("usedBy", sorted)])), .imports⟩,
    ⟨"csp", written canonicalCsp, .csp⟩,
    ⟨"tables", written (mapValues canonicalTable), .tables⟩,
    ⟨"endpoints", written canonicalizeEndpoints, .endpoints⟩,
    ⟨"reservedPrefixes", written sorted, .names⟩,
    ⟨"declared", written (mapValues canonicalReach), .reaches⟩,
    ⟨"directories", some, .plain⟩, ⟨"locale", some, .plain⟩, ⟨"displayName", some, .plain⟩, ⟨"mail", some, .plain⟩,
    ⟨"members", some, .plain⟩, ⟨"directory", some, .plain⟩,
    ⟨"terminal", written (rebuild [("identify", some)]), .terminal⟩,
    ⟨"procedures", written (mapValues (update [("query", canonicalShape)])), .procedures⟩,
    ⟨"tokens", written (mapValues (rebuild [("claims", written canonicalShape), ("maxDays", some)])), .tokens⟩ ]

theorem covers_artifactParts : Covers (artifactParts : List (Part N (Option (Json N)))) .artifact
    ["fileKinds", "declared", "directories", "locale", "displayName", "mail", "members", "directory", "terminal", "procedures",
      "tokens"] :=
  ⟨by simp [artifactParts], rfl, rfl, by simp [artifactParts, Place.fields, List.lookup_cons], rfl,
    by simp [artifactParts, Place.required]⟩

theorem sorts_canonicalizeArtifact : Sorts (canonicalizeArtifact : Json N → Json N) .artifact := by
  refine Sorts.rebuild rfl rfl covers_artifactParts fun part hpart => ?_
  simp only [artifactParts, List.mem_cons, List.not_mem_nil, or_false] at hpart
  rcases hpart with rfl | rfl | rfl | rfl | rfl | rfl | rfl | rfl | rfl | rfl | rfl | rfl | rfl | rfl | rfl | rfl | rfl | rfl |
    rfl | rfl | rfl | rfl | rfl | rfl | rfl
  · exact writes_some
  · exact writes_some
  · exact writes_some
  · exact writes_some
  · exact (sorts_mapValues rfl rfl rfl sorts_canonicalRole).written
  · exact (sorts_mapValues rfl rfl rfl sorts_canonicalMount).written
  · exact (sorts_mapValues rfl rfl rfl sorts_collection).written
  · exact (sorts_mapValues rfl rfl rfl sorts_fileKind).written
  · exact (sorts_mapValues rfl rfl rfl sorts_job).written
  · exact (sorts_mapValues rfl rfl rfl sorts_exported).written
  · exact (sorts_mapValues rfl rfl rfl sorts_imported).written
  · exact sorts_canonicalCsp.written
  · exact (sorts_mapValues rfl rfl rfl sorts_canonicalTable).written
  · exact sorts_canonicalizeEndpoints.written
  · exact sorts_sorted.written
  · exact (sorts_mapValues rfl rfl rfl sorts_canonicalReach).written
  · exact writes_some
  · exact writes_some
  · exact writes_some
  · exact writes_some
  · exact writes_some
  · exact writes_some
  · exact sorts_terminal.written
  · exact (sorts_mapValues rfl rfl rfl sorts_procedure).written
  · exact (sorts_mapValues rfl rfl rfl sorts_token).written

/-! ## One text for one contract -/

theorem canonicalArtifactJson_eq_iff [Numeral N] {a b : Json N} (ha : IsContract a) (hb : IsContract b) :
    canonicalArtifactJson a = canonicalArtifactJson b ↔ SameContract a b := by
  have hapart : contractLayout.Everywhere contractLayout.Apart .artifact a := Layout.Everywhere.mono (fun _ _ h => h.1) ha
  rw [canonicalArtifactJson, canonicalArtifactJson, canonicalText_eq_iff, sorts_canonicalizeArtifact a ha,
    sorts_canonicalizeArtifact b hb]
  exact Layout.canon_eq_iff hapart

/-! ## The canonical form is its own -/

def Idempotent (f : Json N → Json N) : Prop := ∀ value, f (f value) = f value

/-- What is written for a field is written for itself. -/
def Stable (write : Json N → Option (Json N)) : Prop := ∀ value w, write value = some w → write w = some w

theorem Idempotent.written {f : Json N → Json N} (h : Idempotent f) : Stable (written f) := by
  intro value w hw
  cases hw
  exact congrArg some (h value)

theorem stable_some : Stable (some : Json N → Option (Json N)) := fun _ _ _ => rfl

theorem stable_writtenIfTrue : Stable (writtenIfTrue : Json N → Option (Json N)) := by
  intro value w hw
  unfold writtenIfTrue at hw
  split at hw
  · cases hw
    rfl
  · cases hw

theorem idempotent_sorted : Idempotent (sorted : Json N → Json N) := by
  intro value
  cases value with
  | arr values => simp only [sorted, sortOn_sortOn]
  | _ => rfl

theorem idempotent_sortedSources : Idempotent (sortedSources : Json N → Json N) := by
  intro value
  cases value with
  | arr sources => simp only [sortedSources, sortOn_sortOn]
  | _ => rfl

theorem idempotent_canonicalLink : Idempotent (canonicalLink : Json N → Json N) := by
  intro value
  cases value with
  | arr names => exact idempotent_sorted (.arr names)
  | _ => rfl

theorem idempotent_canonicalActions : Idempotent (canonicalActions : Json N → Json N) := by
  intro value
  cases value with
  | arr names => exact idempotent_sorted (.arr names)
  | _ => rfl

theorem Idempotent.nullOr {f : Json N → Json N} (h : Idempotent f) : Idempotent (nullOr f) := by
  have hnull : ∀ value : Json N, f value = value → Canonical.nullOr f value = value := by
    intro value hvalue
    unfold Canonical.nullOr
    split
    · rfl
    · exact hvalue
  intro value
  cases value with
  | null => rfl
  | _ => exact hnull _ (h _)

theorem Idempotent.mapValues {f : Json N → Json N} (h : Idempotent f) : Idempotent (mapValues f) := by
  intro value
  cases value with
  | obj fields =>
    simp only [Canonical.mapValues, List.map_map, Json.obj.injEq]
    exact List.map_congr_left fun field _ => Prod.ext rfl (h field.2)
  | _ => rfl

theorem idempotent_update {spec : List (String × (Json N → Json N))} (h : ∀ entry ∈ spec, Idempotent entry.2) :
    Idempotent (update spec) := by
  intro value
  cases value with
  | obj fields => exact update_update fun entry hentry value _ => h entry hentry value
  | _ => rfl

theorem idempotent_rebuild {spec : List (String × (Json N → Option (Json N)))} (hnames : (spec.map Prod.fst).Nodup)
    (h : ∀ entry ∈ spec, Stable entry.2) : Idempotent (rebuild spec) := by
  intro value
  cases value with
  | obj fields => exact rebuild_rebuild (nodup_names hnames) fun entry hentry value _ => h entry hentry value
  | _ => rfl

theorem reads_update {spec : List (String × (Json N → Json N))} {key : String} (hkey : spec.lookup key = none) (value : Json N)
    (text : String) : reads (update spec value) key text = reads value key text := by
  cases value with
  | obj fields =>
    have hnames : (names spec).lookup (codeUnits key) = none := by rw [lookup_names, hkey]
    simp only [update, reads, textAt, lookup_update hnames]
  | _ => rfl

theorem reads_rebuild {spec : List (String × (Json N → Option (Json N)))} {key : String} (hnames : (spec.map Prod.fst).Nodup)
    (hkey : (key, some) ∈ spec) (value : Json N) (text : String) :
    reads (rebuild spec value) key text = reads value key text := by
  cases value with
  | obj fields =>
    have hmem : (codeUnits key, some) ∈ names spec := mem_names.mpr ⟨key, rfl, hkey⟩
    simp only [rebuild, reads, textAt, lookup_rebuildFields (nodup_names hnames) fields hmem, Option.bind_fun_some]
  | _ => rfl

/-- Canonicalizing a value again as a shape, a list or a record of shapes changes nothing. -/
structure ShapesStable (value : Json N) : Prop where
  shape : canonicalShape (canonicalShape value) = canonicalShape value
  list : canonicalShapes (canonicalShapes value) = canonicalShapes value
  record : canonicalShapeRecord (canonicalShapeRecord value) = canonicalShapeRecord value

theorem stable_shapeParts (h : ShapesStable value) {part : Part N (Option (Json N))} (hpart : part ∈ shapeParts type)
    {w : Json N} (hw : part.map value = some w) : part.map w = some w := by
  have hcases : part.map = some ∨ part.map = written sorted ∨ part.map = written canonicalShape ∨
      part.map = written canonicalShapes ∨
      part.map = written canonicalShapeRecord := by
    cases type <;> simp only [shapeParts, List.mem_cons, List.not_mem_nil, or_false] at hpart
    all_goals rcases hpart with rfl | rfl | rfl <;> simp
  rcases hcases with he | he | he | he | he
  · rw [he]
  · rw [he] at hw ⊢
    exact idempotent_sorted.written value w hw
  · rw [he] at hw ⊢
    cases hw
    exact congrArg some h.shape
  · rw [he] at hw ⊢
    cases hw
    exact congrArg some h.list
  · rw [he] at hw ⊢
    cases hw
    exact congrArg some h.record

theorem type_mem_shapeParts (harray : type ≠ .array) (hother : type ≠ .other) :
    ("type", some) ∈ spec (shapeParts type : List (Part N (Option (Json N)))) := by
  cases type <;> simp_all [spec, shapeParts]

section
variable (hcase : shapeType (textAt fields (codeUnits "type")) = type) (harray : type ≠ .array) (hother : type ≠ .other)
include hcase harray hother

theorem canonicalShape_of_parts : canonicalShape (.obj fields) = rebuild (spec (shapeParts type)) (.obj fields) := by
  rw [canonicalShape_obj, hcase]
  cases type <;> simp_all

/-- A shape written anew has the type it was read with. -/
theorem canonicalShape_rebuilt (h : ∀ field ∈ fields, ShapesStable field.2) :
    canonicalShape (canonicalShape (.obj fields)) = canonicalShape (.obj fields) := by
  have hnodup := nodup_names_spec (shapeParts_names (N := N) (hcase ▸ harray) (hcase ▸ hother)).1
  rw [hcase] at hnodup
  have htype : (codeUnits "type", some) ∈ names (spec (shapeParts type : List (Part N (Option (Json N))))) :=
    mem_names.mpr ⟨"type", rfl, type_mem_shapeParts harray hother⟩
  have htext : textAt (rebuildFields (names (spec (shapeParts type))) fields) (codeUnits "type") =
      textAt fields (codeUnits "type") := by
    rw [textAt, lookup_rebuildFields hnodup fields htype, Option.bind_fun_some, textAt]
  rw [canonicalShape_of_parts hcase harray hother]
  conv_lhs => rw [rebuild, canonicalShape_of_parts (htext ▸ hcase) harray hother]
  refine rebuild_rebuild hnodup fun entry hentry value hmem w hw => ?_
  obtain ⟨part, hpart, rfl⟩ := List.mem_map.mp hentry
  exact stable_shapeParts (h _ hmem) hpart hw

end

theorem canonicalShape_array (hcase : shapeType (textAt fields (codeUnits "type")) = .array)
    (h : ∀ field ∈ fields, ShapesStable field.2) :
    canonicalShape (canonicalShape (.obj fields)) = canonicalShape (.obj fields) := by
  have hitems : (names [("items", (canonicalShape : Json N → Json N))]).lookup (codeUnits "type") = none := by
    rw [lookup_names]
    rfl
  rw [canonicalShape_obj fields, hcase]
  dsimp only
  conv_lhs => rw [update, canonicalShape_obj, textAt, lookup_update hitems, ← textAt, hcase]
  refine update_update fun entry hentry value hmem => ?_
  rw [List.mem_singleton.mp hentry] at hmem ⊢
  exact (h _ hmem).shape

theorem shapesStable (value : Json N) : ShapesStable value := by
  induction value using Json.inductionOn with
  | arr xs ih =>
    refine ⟨rfl, ?_, rfl⟩
    simp only [canonicalShapes, shapeItems_eq, List.map_map, Json.arr.injEq]
    exact List.map_congr_left fun x hx => (ih x hx).shape
  | obj fields ih =>
    refine ⟨?_, rfl, ?_⟩
    · cases hcase : shapeType (textAt fields (codeUnits "type")) with
      | array => exact canonicalShape_array hcase ih
      | other =>
        have hsame : canonicalShape (.obj fields) = .obj fields := by rw [canonicalShape_obj, hcase]
        rw [hsame, hsame]
      | _ => exact canonicalShape_rebuilt hcase (by simp) (by simp) ih
    · simp only [canonicalShapeRecord, shapeFields_eq, List.map_map, Json.obj.injEq]
      exact List.map_congr_left fun field hfield => Prod.ext rfl (ih field hfield).shape
  | _ => exact ⟨rfl, rfl, rfl⟩

theorem idempotent_canonicalShape : Idempotent (canonicalShape : Json N → Json N) := fun value => (shapesStable value).shape

theorem reads_canonicalShape (shape : Json N) (text : String) :
    reads (canonicalShape shape) "type" text = reads shape "type" text := by
  cases shape with
  | obj fields =>
    cases hcase : shapeType (textAt fields (codeUnits "type")) with
    | array =>
      rw [canonicalShape_obj, hcase]
      exact reads_update rfl _ _
    | other => rw [canonicalShape_obj, hcase]
    | _ =>
      rw [canonicalShape_of_parts hcase (by simp) (by simp)]
      refine reads_rebuild ?_ (type_mem_shapeParts (by simp) (by simp)) _ _
      simp [spec, shapeParts]
  | _ => rfl

theorem idempotent_column : Idempotent (rebuild [("name", some), ("shape", written canonicalShape)] : Json N → Json N) :=
  idempotent_rebuild (by simp) (by simp [stable_some, idempotent_canonicalShape.written])

theorem idempotent_canonicalColumns : Idempotent (canonicalColumns : Json N → Json N) := by
  intro value
  cases value with
  | arr columns =>
    simp only [canonicalColumns, List.map_map, Json.arr.injEq]
    exact List.map_congr_left fun column _ => idempotent_column column
  | _ => rfl

theorem idempotent_redirect : Idempotent (rebuild [("type", some), ("origins", written sorted)] : Json N → Json N) :=
  idempotent_rebuild (by simp) (by simp [stable_some, idempotent_sorted.written])

theorem idempotent_attachment : Idempotent (update [("columns", canonicalColumns)] : Json N → Json N) :=
  idempotent_update (by simp [idempotent_canonicalColumns])

theorem idempotent_canonicalOutput : Idempotent (canonicalOutput : Json N → Json N) := by
  intro shape
  by_cases hredirect : reads shape "type" "redirect" = true
  · have hfirst : canonicalOutput shape = rebuild [("type", some), ("origins", written sorted)] shape := if_pos hredirect
    rw [hfirst, canonicalOutput, if_pos (by rw [reads_rebuild (by simp) (by simp), hredirect]), idempotent_redirect]
  · by_cases hattachment : reads shape "type" "attachment" = true
    · have hfirst : canonicalOutput shape = update [("columns", canonicalColumns)] shape := by
        rw [canonicalOutput, if_neg hredirect, if_pos hattachment]
      rw [hfirst, canonicalOutput, if_neg (by rwa [reads_update rfl]), if_pos (by rw [reads_update rfl, hattachment]),
        idempotent_attachment]
    · have hfirst : canonicalOutput shape = canonicalShape shape := by
        rw [canonicalOutput, if_neg hredirect, if_neg hattachment]
      rw [hfirst, canonicalOutput, if_neg (by rwa [reads_canonicalShape]), if_neg (by rwa [reads_canonicalShape]),
        idempotent_canonicalShape]

theorem idempotent_canonicalAdmission : Idempotent (canonicalAdmission : Json N → Json N) :=
  idempotent_rebuild (by simp) (by
    have htuple : Idempotent (sortedTuple : Json N → Json N) := idempotent_sorted
    simp [stable_some, htuple.written])

/-- A row's requirement is not written, so the same fields are sorted again. -/
theorem canonicalizeEndpoint_update {spec : List (String × (Json N → Json N))} (hspec : spec.lookup "requirement" = none)
    (hidempotent : Idempotent (update spec))
    (h : ∀ others : List (Units × Json N), others.lookup (codeUnits "requirement") = fields.lookup (codeUnits "requirement") →
      canonicalizeEndpoint (.obj others) = update spec (.obj others)) :
    canonicalizeEndpoint (canonicalizeEndpoint (.obj fields)) = canonicalizeEndpoint (.obj fields) := by
  have hnames : (names spec).lookup (codeUnits "requirement") = none := by rw [lookup_names, hspec]
  rw [h fields rfl]
  conv_rhs => rw [← hidempotent (.obj fields)]
  exact h _ (lookup_update hnames fields)

theorem idempotent_endpointParts {callers : Json N → Json N} (h : Idempotent callers) :
    Idempotent (update (spec (endpointParts callers))) :=
  idempotent_update (by
    simp [spec, endpointParts, idempotent_canonicalAdmission.nullOr, idempotent_canonicalShape.nullOr,
      idempotent_canonicalOutput.nullOr, h])

theorem idempotent_shared : Idempotent (update (spec ((endpointParts id).take 3)) : Json N → Json N) :=
  idempotent_update (by
    simp [spec, endpointParts, idempotent_canonicalAdmission.nullOr, idempotent_canonicalShape.nullOr,
      idempotent_canonicalOutput.nullOr])

theorem idempotent_canonicalizeEndpoint : Idempotent (canonicalizeEndpoint : Json N → Json N) := by
  intro row
  cases row with
  | obj fields =>
    by_cases hnull : fields.lookup (codeUnits "requirement") = some .null
    · refine canonicalizeEndpoint_update rfl idempotent_shared fun others hothers => ?_
      simp only [canonicalizeEndpoint, hothers, hnull]
      rfl
    · refine canonicalizeEndpoint_update rfl (idempotent_endpointParts idempotent_sorted) fun others hothers => ?_
      simp only [canonicalizeEndpoint, hothers]
      rfl
  | _ => rfl

theorem idempotent_canonicalizeEndpoints : Idempotent (canonicalizeEndpoints : Json N → Json N) := by
  intro value
  cases value with
  | arr rows =>
    have hfixed : (sortOn (fieldText (codeUnits "id")) (rows.map canonicalizeEndpoint)).map canonicalizeEndpoint
        = sortOn (fieldText (codeUnits "id")) (rows.map canonicalizeEndpoint) := by
      conv_rhs => rw [← List.map_id (sortOn _ _)]
      refine List.map_congr_left fun row hrow => ?_
      obtain ⟨original, _, rfl⟩ := List.mem_map.mp ((sortOn_perm _ _).mem_iff.mp hrow)
      exact idempotent_canonicalizeEndpoint original
    simp only [canonicalizeEndpoints, hfixed, sortOn_sortOn]
  | _ => rfl

theorem idempotent_canonicalMembership : Idempotent (canonicalMembership : Json N → Json N) :=
  idempotent_rebuild (by simp) (by simp [stable_some, idempotent_sorted.written])

theorem idempotent_canonicalRole : Idempotent (canonicalRole : Json N → Json N) :=
  idempotent_rebuild (by simp) (by
    simp [idempotent_sorted.written, idempotent_canonicalMembership.nullOr.written, stable_writtenIfTrue])

theorem idempotent_update_sorted (name : String) : Idempotent (update [(name, sorted)] : Json N → Json N) :=
  idempotent_update (by simp [idempotent_sorted])

theorem idempotent_canonicalMount : Idempotent (canonicalMount : Json N → Json N) := by
  have hstep : ∀ (name : String) {mount : Json N}, (List.lookup "kind" [(name, (sorted : Json N → Json N))] = none) →
      canonicalMount mount = update [(name, sorted)] mount →
      (∀ other : Json N, (∀ text, reads other "kind" text = reads mount "kind" text) →
        canonicalMount other = update [(name, sorted)] other) →
      canonicalMount (canonicalMount mount) = canonicalMount mount := by
    intro name mount hname hfirst hsame
    rw [hfirst, hsame _ (reads_update hname mount), idempotent_update_sorted]
  intro mount
  by_cases hrpc : reads mount "kind" "rpc" = true
  · exact hstep "callers" rfl (by simp [canonicalMount, hrpc]) fun other hother => by simp [canonicalMount, hother, hrpc]
  by_cases hlink : reads mount "kind" "link" = true
  · exact hstep "grants" rfl (by simp [canonicalMount, hrpc, hlink]) fun other hother => by
      simp [canonicalMount, hother, hrpc, hlink]
  by_cases hwebhook : reads mount "kind" "webhook" = true
  · exact hstep "actions" rfl (by simp [canonicalMount, hrpc, hlink, hwebhook]) fun other hother => by
      simp [canonicalMount, hother, hrpc, hlink, hwebhook]
  by_cases hspa : reads mount "kind" "spa" = true
  · exact hstep "public" rfl (by simp [canonicalMount, hrpc, hlink, hwebhook, hspa]) fun other hother => by
      simp [canonicalMount, hother, hrpc, hlink, hwebhook, hspa]
  · have hsame : canonicalMount mount = mount := by simp [canonicalMount, hrpc, hlink, hwebhook, hspa]
    rw [hsame, hsame]

theorem idempotent_canonicalTableScope : Idempotent (canonicalTableScope : Json N → Json N) := by
  intro scope
  by_cases hchild : reads scope "mode" "child" = true
  · have hfirst : canonicalTableScope scope = update [("inherit", sorted)] scope := if_pos hchild
    rw [hfirst, canonicalTableScope, if_pos (by rw [reads_update rfl, hchild]), idempotent_update_sorted]
  · have hsame : canonicalTableScope scope = scope := if_neg hchild
    rw [hsame, hsame]

theorem idempotent_canonicalTableActions : Idempotent (canonicalTableActions : Json N → Json N) := by
  have hoptional : Idempotent (canonicalOptionalActions : Json N → Json N) := idempotent_canonicalActions.nullOr
  exact idempotent_rebuild (by simp) (by simp [idempotent_canonicalActions.written, hoptional.written, idempotent_sorted.written])

theorem idempotent_canonicalTable : Idempotent (canonicalTable : Json N → Json N) :=
  idempotent_update (by simp [idempotent_canonicalTableActions, idempotent_canonicalTableScope, idempotent_sorted])

theorem idempotent_canonicalCsp : Idempotent (canonicalCsp : Json N → Json N) :=
  idempotent_rebuild (by simp) (by simp [idempotent_sortedSources.written])

theorem idempotent_canonicalReach : Idempotent (canonicalReach : Json N → Json N) :=
  idempotent_update (by simp [idempotent_sorted])

theorem idempotent_collection : Idempotent (update [("types", sorted), ("link", canonicalLink)] : Json N → Json N) :=
  idempotent_update (by simp [idempotent_sorted, idempotent_canonicalLink])

theorem idempotent_imported : Idempotent (update [("procedures", sorted), ("usedBy", sorted)] : Json N → Json N) :=
  idempotent_update (by simp [idempotent_sorted])

theorem idempotent_procedure : Idempotent (update [("query", canonicalShape)] : Json N → Json N) :=
  idempotent_update (by simp [idempotent_canonicalShape])

theorem idempotent_token : Idempotent (rebuild [("claims", written canonicalShape), ("maxDays", some)] : Json N → Json N) :=
  idempotent_rebuild (by simp) (by simp [idempotent_canonicalShape.written, stable_some])

theorem idempotent_terminal : Idempotent (rebuild [("identify", some)] : Json N → Json N) :=
  idempotent_rebuild (by simp) (by simp [stable_some])

theorem idempotent_canonicalizeArtifact : Idempotent (canonicalizeArtifact : Json N → Json N) := by
  refine idempotent_rebuild (by simp) ?_
  simp [stable_some, idempotent_canonicalRole.mapValues.written, idempotent_canonicalMount.mapValues.written,
    idempotent_collection.mapValues.written, (idempotent_update_sorted _).mapValues.written,
    idempotent_imported.mapValues.written,
    idempotent_canonicalCsp.written, idempotent_canonicalTable.mapValues.written, idempotent_canonicalizeEndpoints.written,
    idempotent_sorted.written, idempotent_canonicalReach.mapValues.written, idempotent_terminal.written,
    idempotent_procedure.mapValues.written, idempotent_token.mapValues.written]

/-! ## The digest of a contract -/

def formatNumber : Double := ⟨2, 2, 0, by norm_num, by norm_num, by norm_num, by norm_num⟩

/-- A contract of two actions and one role, with the given grants and reserved prefixes. -/
def notesArtifact (grants prefixes : List String) : Json Double :=
  object
    [ ("format", .num formatNumber), ("app", text "notes"), ("dimensions", object []),
      ("actions", object [("notes.read", text "Read notes"), ("notes.write", text "Write notes")]),
      ("roles", object [("editor", object [("grants", .arr (grants.map text)), ("member", .null)])]),
      ("mounts", object []), ("files", object []), ("jobs", object []), ("exports", object []), ("imports", object []),
      ("csp", object [("connectSrc", .arr []), ("imgSrc", .arr []), ("frameAncestors", .arr [])]),
      ("tables", object []), ("endpoints", .arr []), ("reservedPrefixes", .arr (prefixes.map text)) ]

theorem digest_covers_contract {a b : Json Double} (ha : IsContract a) (hb : IsContract b) :
    (canonicalArtifactJson a = canonicalArtifactJson b ↔ SameContract a b) ∧
    canonicalizeArtifact (canonicalizeArtifact a) = canonicalizeArtifact a :=
  ⟨canonicalArtifactJson_eq_iff ha hb, idempotent_canonicalizeArtifact a⟩

theorem notesArtifact_digests :
    (canonicalArtifactJson (notesArtifact ["notes.write", "notes.read"] ["/b", "/a"]) =
      canonicalArtifactJson (notesArtifact ["notes.read", "notes.write"] ["/a", "/b"]) ↔
      SameContract (notesArtifact ["notes.write", "notes.read"] ["/b", "/a"])
      (notesArtifact ["notes.read", "notes.write"] ["/a", "/b"])) ∧
    canonicalizeArtifact (canonicalizeArtifact (notesArtifact ["notes.write", "notes.read"] ["/b", "/a"])) =
      canonicalizeArtifact (notesArtifact ["notes.write", "notes.read"] ["/b", "/a"]) :=
  digest_covers_contract (Layout.everywhere_of_check _ _ (by decide)) (Layout.everywhere_of_check _ _ (by decide))

end Fabrika.AuthCore.Canonical
