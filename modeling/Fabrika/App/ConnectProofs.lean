/-
  Fabrika.App.ConnectProofs — which calls that worked break where no change is reported.

  A new field is optional and so may be absent, but zod reads `value[name]`: where the name is one
  of `Object.prototype`'s, an object without the field answers a function, which the field refuses
  (`a_new_constructor_breaks_old_calls`). `meets` says when a value comes to such a field.

  `widens_iff` is the induction over two shapes: a kept field is widened, a new one reads as absent
  unless the value meets it, and any other shape has the other's text. The canonical shapes stand
  for the shapes by `same_canonicalShape`.
-/

import Fabrika.App.Connect
import Fabrika.App.SchemaValuesProofs

namespace Fabrika.App.Connect

open Fabrika.Lib Fabrika.AuthCore
open Fabrika.App.Params (SchemaShape Fields isInherited)
open Fabrika.App.SchemaValues

variable {checks : Checks}

/-! ## Fields named once -/

theorem allDistinct_canonicalShapes {shapes : List SchemaShape}
    (ih : ∀ shape ∈ shapes, distinct shape = true → distinct (canonicalShape shape) = true)
    (h : allDistinct shapes = true) : allDistinct (canonicalShapes shapes) = true := by
  rw [allDistinct_eq, List.all_eq_true] at h ⊢
  rw [canonicalShapes_eq]
  intro other hother
  obtain ⟨shape, hshape, rfl⟩ := List.mem_map.mp hother
  exact ih shape hshape (h shape hshape)

theorem distinct_canonicalShape (s : SchemaShape) (h : distinct s = true) : distinct (canonicalShape s) = true := by
  induction s using inductionOn with
  | array items minItems maxItems ih => exact ih h
  | tuple items rest ih ihrest =>
    rw [distinct, Bool.and_eq_true] at h
    rw [canonicalShape, distinct, Bool.and_eq_true]
    refine ⟨allDistinct_canonicalShapes ih h.1, ?_⟩
    cases rest with
    | none => rfl
    | some shape => exact ihrest shape rfl h.2
  | record key value ihkey ihvalue =>
    rw [distinct, Bool.and_eq_true] at h
    rw [canonicalShape, distinct, Bool.and_eq_true]
    exact ⟨ihkey h.1, ihvalue h.2⟩
  | object fields ih =>
    rw [distinct, Bool.and_eq_true, fieldsDistinct_eq, List.all_eq_true] at h
    rw [canonicalShape, distinct, Bool.and_eq_true, fieldsDistinct_eq, List.all_eq_true, canonicalFields_eq, List.map_map]
    refine ⟨h.1, fun field hfield => ?_⟩
    obtain ⟨g, hg, rfl⟩ := List.mem_map.mp hfield
    exact ih g hg (h.2 g hg)
  | optional inner ih => exact ih h
  | nullable inner ih => exact ih h
  | union options ih => exact allDistinct_canonicalShapes ih h
  | enum values => rfl
  | _ => exact h

/-! ## Widening -/

theorem widensFields_eq (fields others : Fields) :
    widensFields fields others = fields.all fun field => (others.lookup field.1).any (widens field.2) := by
  induction fields with
  | nil => rfl
  | cons field rest ih =>
    obtain ⟨name, shape⟩ := field
    rw [widensFields, ih, List.all_cons]
    cases others.lookup name <;> rfl

variable {o p : OutputShape}

theorem isOptional_admits {s : SchemaShape} (h : isOptional s = true) : admits checks s .absent = true := by
  cases s with
  | optional inner => rfl
  | _ => exact absurd h (by simp [isOptional])

/-- Whether a field is new, is named as a member of `Object.prototype` and refuses it: each of them is
    a function, `__proto__` apart. -/
def refusesInherited (checks : Checks) (fields : Fields) (get : Units → Wire) (field : Units × SchemaShape) : Bool :=
  (fields.lookup field.1).isNone && isInherited field.1 && (field.1 ≠ codeUnits "__proto__" ||
    !admits checks field.2 (get field.1))

mutual
/-- Whether the value has an object at a place where `after` has such a field. -/
def meets (checks : Checks) : SchemaShape → SchemaShape → Wire → Bool
  | .object fields, .object others, value =>
    onObject (fun _ get => others.any (refusesInherited checks fields get) || meetsFields checks fields others get) value
  | .optional before, .optional after, value => meets checks before after value
  | .nullable before, .nullable after, value => meets checks before after value
  | _, _, _ => false
def meetsFields (checks : Checks) : Fields → Fields → (Units → Wire) → Bool
  | [], _, _ => false
  | (name, field) :: rest, others, get =>
    (match others.lookup name with
      | some next => meets checks field next (get name)
      | none => false) || meetsFields checks rest others get
end

theorem meetsFields_eq (fields others : Fields) (get : Units → Wire) :
    meetsFields checks fields others get = fields.any fun field =>
    (others.lookup field.1).any (meets checks field.2 · (get field.1)) := by
  induction fields with
  | nil => rfl
  | cons field rest ih =>
    obtain ⟨name, shape⟩ := field
    rw [meetsFields, ih, List.any_cons]
    cases others.lookup name <;> rfl

/-- No value that is no object meets a field. -/
theorem meets_plain (s : SchemaShape) : ∀ t {value : Wire}, objectOf value = none → meets checks s t value = false := by
  induction s using inductionOn with
  | object fields _ =>
    intro t value h
    cases t with
    | object others =>
      rw [meets, onObject, h]
      rfl
    | _ => rfl
  | optional inner ih =>
    intro t value h
    cases t with
    | optional other => exact ih other h
    | _ => rfl
  | nullable inner ih =>
    intro t value h
    cases t with
    | nullable other => exact ih other h
    | _ => rfl
  | _ =>
    intro t value _
    rfl

/-- An optional field that is new takes what an object without it answers exactly where it does not
    refuse what it inherits. -/
theorem new_field_iff {fields : Fields} {value : Wire} {listed : List Units} {get : Units → Wire} {field : Units × SchemaShape}
    (hobject : objectOf value = some (listed, get)) (hunlisted : field.1 ∉ listed) (hnew : fields.lookup field.1 = none)
    (hoptional : isOptional field.2 = true) :
    admits checks field.2 (get field.1) = true ↔ refusesInherited checks fields get field = false := by
  by_cases hinherited : isInherited field.1 = true
  · rw [refusesInherited, hnew, hinherited, Option.isNone_none, Bool.true_and, Bool.true_and]
    by_cases hproto : field.1 = codeUnits "__proto__"
    · simp only [hproto, ne_eq, not_true_eq_false, decide_false, Bool.false_or, Bool.not_eq_false']
    · have hread := get_unlisted hobject hunlisted hproto
      rw [Wire.missing, if_pos hinherited] at hread
      rw [hread, function_refused _ hproto]
      simp [hproto]
  · rw [get_eq_absent hobject hunlisted (Bool.eq_false_iff.mpr hinherited)]
    simp [refusesInherited, hinherited, isOptional_admits hoptional]

/-- An object that keeps every field, and whose new fields are optional, accepts what the other
    did where each new field takes what is read in its place. -/
theorem widens_object {fields others : Fields} (ih : ∀ field ∈ fields, ∀ t, distinct t = true → widens field.2 t = true →
      ∀ value, admits checks field.2 value = true → (admits checks t value = true ↔ meets checks field.2 t value = false))
    (hdistinct : distinct (.object others) = true) (h : widens (.object fields) (.object others) = true) (value : Wire)
    (hv : admits checks (.object fields) value = true) :
    admits checks (.object others) value = true ↔ meets checks (.object fields) (.object others) value = false := by
  rw [widens, Bool.and_eq_true, widensFields_eq, List.all_eq_true, List.all_eq_true] at h
  obtain ⟨hkept, hnew⟩ := h
  rw [distinct, Bool.and_eq_true, decide_eq_true_eq, fieldsDistinct_eq, List.all_eq_true] at hdistinct
  obtain ⟨hnodup, hdistinct⟩ := hdistinct
  obtain ⟨listed, get, hobject, hstrict, hfields⟩ := admits_object_iff.mp hv
  have hadded : ∀ other ∈ others, fields.lookup other.1 = none →
      (admits checks other.2 (get other.1) = true ↔ refusesInherited checks fields get other = false) := by
    intro other hother hnone
    refine new_field_iff hobject (fun hlisted => ?_) hnone ?_
    · have hsome := lookup_of_mem_names (hstrict other.1 hlisted)
      rw [hnone] at hsome
      cases hsome
    · simpa [hnone] using hnew other hother
  have hmeets : meets checks (.object fields) (.object others) value = false ↔
      (∀ other ∈ others, refusesInherited checks fields get other = false)
        ∧ ∀ field ∈ fields, ∀ next, others.lookup field.1 = some next → meets checks field.2 next (get field.1) = false := by
    rw [meets, onObject, hobject, Option.any_some, Bool.or_eq_false_iff, List.any_eq_false, meetsFields_eq, List.any_eq_false]
    simp only [Bool.not_eq_true, Option.any_eq_false]
  rw [hmeets]
  constructor
  · intro hadmits
    obtain ⟨_, _, hsame, -, hothers⟩ := admits_object_iff.mp hadmits
    rw [hobject] at hsame
    cases hsame
    constructor
    · intro other hother
      cases hold : fields.lookup other.1 with
      | none => exact (hadded other hother hold).mp (hothers other hother)
      | some shape => simp [refusesInherited, hold]
    · intro field hfield next hnext
      have hwidens := hkept field hfield
      rw [hnext, Option.any_some] at hwidens
      have hmem := Json.mem_of_lookup_eq_some hnext
      exact (ih field hfield next (hdistinct _ hmem) hwidens _ (hfields field hfield)).mp (hothers _ hmem)
  · intro hnone
    obtain ⟨hnone, hbelow⟩ := hnone
    refine admits_object_iff.mpr ⟨listed, get, hobject, fun name hname => ?_, fun other hother => ?_⟩
    · obtain ⟨field, hfield, heq⟩ := List.mem_map.mp (hstrict name hname)
      obtain ⟨next, hnext, -⟩ := (Option.any_eq_true _ _).mp (hkept field hfield)
      rw [heq] at hnext
      exact mem_names_of_lookup hnext
    · cases hold : fields.lookup other.1 with
      | none => exact (hadded other hother hold).mpr (hnone other hother)
      | some shape =>
        have hfield := Json.mem_of_lookup_eq_some hold
        have hlookup : others.lookup other.1 = some other.2 := (Json.lookup_eq_some_iff hnodup).mpr hother
        have hnext := hkept _ hfield
        rw [hlookup, Option.any_some] at hnext
        exact (ih _ hfield other.2 (hdistinct other hother) hnext _ (hfields _ hfield)).mpr (hbelow _ hfield _ hlookup)

/-- Of the values a shape accepts, a widened one accepts those that meet no field which refuses what
    it inherits. -/
theorem widens_iff (s : SchemaShape) : ∀ t, distinct t = true → widens s t = true → ∀ value, admits checks s value = true →
    (admits checks t value = true ↔ meets checks s t value = false) := by
  have htext : ∀ {a b : SchemaShape}, (canonicalJson a == canonicalJson b) = true → ∀ value, admits checks a value = true →
      (admits checks b value = true ↔ false = false) := by
    intro a b h value hv
    rw [← (same_of_text (beq_iff_eq.mp h)).value value]
    exact iff_of_true hv rfl
  induction s using inductionOn with
  | object fields ih =>
    intro t hdistinct h value hv
    cases t with
    | object others => exact widens_object ih hdistinct h value hv
    | _ => exact htext h value hv
  | optional inner ih =>
    intro t hdistinct h value hv
    cases t with
    | optional other =>
      rw [admits, Bool.or_eq_true] at hv ⊢
      obtain habsent | hv := hv
      · refine iff_of_true (.inl habsent) (meets_plain inner other ?_)
        rw [isAbsent_iff.mp habsent]
        rfl
      · rw [meets, ← ih other hdistinct h value hv]
        refine or_iff_right_of_imp fun habsent => ?_
        rw [isAbsent_iff.mp habsent] at hv ⊢
        exact (ih other hdistinct h .absent hv).mpr (meets_plain inner other rfl)
    | _ => exact htext h value hv
  | nullable inner ih =>
    intro t hdistinct h value hv
    cases t with
    | nullable other =>
      have hplain : ∀ {value : Wire}, isNull value = true → objectOf value = none := by
        intro value hnull
        unfold isNull at hnull
        split at hnull
        · rfl
        · cases hnull
      rw [admits, Bool.or_eq_true] at hv ⊢
      obtain hnull | hv := hv
      · exact iff_of_true (.inl hnull) (meets_plain inner other (hplain hnull))
      · rw [meets, ← ih other hdistinct h value hv]
        refine or_iff_right_of_imp fun hnull => ?_
        exact (ih other hdistinct h value hv).mpr (meets_plain inner other (hplain hnull))
    | _ => exact htext h value hv
  | _ =>
    intro t hdistinct h value hv
    exact htext h value hv

/-- Of the values one input accepts, the other accepts exactly those that meet no field which
    refuses what it inherits; no input at all is its own kind. -/
def AcceptsUnmet (checks : Checks) : Option Shape → Option Shape → Prop
  | some before, some after => ∀ value, admits checks before.shape value = true →
    (admits checks after.shape value = true ↔ meets checks (canonicalShape before.shape) (canonicalShape after.shape)
      value = false)
  | none, none => True
  | _, _ => False

theorem acceptsEveryInput_sound {before after : Option Shape} (h : acceptsEveryInput before after = true) :
    AcceptsUnmet checks before after := by
  match before, after with
  | none, none => trivial
  | some _, none => exact absurd h (by simp [acceptsEveryInput])
  | none, some _ => exact absurd h (by simp [acceptsEveryInput])
  | some before, some after =>
    intro value hv
    rw [← (same_canonicalShape before.shape).value] at hv
    rw [← (same_canonicalShape after.shape).value]
    exact widens_iff _ _ (distinct_canonicalShape _ after.distinct) h value hv

/-! ## Outputs of one text -/

theorem same_of_canonical_text {s t : SchemaShape} (h : canonicalJson (canonicalShape s) = canonicalJson (canonicalShape t)) :
    Same checks s t := by
  have hs : Same checks (canonicalShape s) s := same_canonicalShape s
  exact hs.symm.trans ((same_of_text h).trans (same_canonicalShape t))

/-- A column under its name, whose cells are the same. -/
def SameColumn (checks : Checks) (a b : AttachmentColumn) : Prop := a.name = b.name ∧ Same checks a.shape b.shape

/-- What an answer of one output can be, an answer of the other can be too. -/
def AnswersWithin (checks : Checks) : Option OutputShape → Option OutputShape → Prop
  | none, none => True
  | some (.schema after), some (.schema before) => ∀ value, admits checks after value = true → admits checks before value = true
  | some (.attachment after), some (.attachment before) =>
    after.format = before.format ∧ after.filename = before.filename ∧ after.maxBytes = before.maxBytes ∧
    after.maxRows = before.maxRows
      ∧ List.Forall₂ (SameColumn checks) after.columns before.columns
  | some (.redirect after), some (.redirect before) => ∀ origin, origin ∈ after ↔ origin ∈ before
  | _, _ => False

def outputType : OutputShape → String
  | .schema shape => typeName shape
  | .attachment _ => "attachment"
  | .redirect _ => "redirect"

/-- The fields of an output's value but its type. -/
def outputParts : OutputShape → List (String × Json NumberText)
  | .schema shape => shapeParts shape
  | .attachment shape =>
    [ ("format", Json.text shape.format.text), ("filename", Json.text shape.filename), ("maxBytes", numberJson shape.maxBytes),
      ("maxRows", numberJson shape.maxRows), ("columns", .arr (shape.columns.map columnJson)) ]
  | .redirect origins => [("origins", .arr (origins.map Json.text))]

theorem outputJson_eq (o : OutputShape) : outputJson o = Json.object (("type", Json.text (outputType o)) :: outputParts o) := by
  cases o with
  | schema shape => exact shapeJson_eq shape
  | attachment shape => rfl
  | redirect origins => rfl

theorem nodup_outputParts (o : OutputShape) :
    ((("type", (Json.text (outputType o) : Json NumberText)) :: outputParts o).map Prod.fst).Nodup := by
  cases o with
  | schema shape => exact nodup_parts shape
  | attachment shape => simp [outputParts]
  | redirect origins => simp [outputParts]

theorem outputPart_eq (h : (outputJson o).normal = (outputJson p).normal) (name : String) :
    ((("type", Json.text (outputType o)) :: outputParts o).lookup name).map Json.normal
      = ((("type", Json.text (outputType p)) :: outputParts p).lookup name).map Json.normal := by
  rw [outputJson_eq, outputJson_eq] at h
  exact Json.object_lookup_eq (nodup_outputParts o) (nodup_outputParts p) h name

theorem outputType_eq (h : (outputJson o).normal = (outputJson p).normal) : outputType o = outputType p :=
  Json.normal_text_inj.mp (Option.some.inj (outputPart_eq h "type"))

theorem typeName_ne (s : SchemaShape) : typeName s ≠ "attachment" ∧ typeName s ≠ "redirect" := by
  cases s <;> simp [typeName]

theorem columnJson_same {a b : AttachmentColumn} (h : (columnJson a).normal = (columnJson b).normal) : SameColumn checks a b := by
  have hpart := Json.object_lookup_eq (by simp) (by simp) h
  exact ⟨Json.normal_text_inj.mp (Option.some.inj (hpart "name")), same_of_normal_eq _ _ (Option.some.inj (hpart "shape"))⟩

theorem columns_same {a b : List AttachmentColumn} (h : (Json.arr (a.map columnJson)).normal =
      (Json.arr (b.map columnJson)).normal) :
    List.Forall₂ (SameColumn checks) a b := by
  simp only [Json.normal_arr, Json.arr.injEq, List.map_map] at h
  induction a generalizing b with
  | nil =>
    cases b with
    | nil => exact .nil
    | cons column rest => simp at h
  | cons column a ih =>
    cases b with
    | nil => simp at h
    | cons other b =>
      rw [List.map_cons, List.map_cons, List.cons.injEq] at h
      exact .cons (columnJson_same h.1) (ih h.2)

theorem SameColumn.of_canonical {a b : AttachmentColumn}
    (h : SameColumn checks { a with shape := canonicalShape a.shape } { b with shape := canonicalShape b.shape }) :
    SameColumn checks a b :=
  ⟨h.1, (same_canonicalShape a.shape).symm.trans (h.2.trans (same_canonicalShape b.shape))⟩

theorem forall₂_of_canonical {a b : List AttachmentColumn}
    (h : List.Forall₂ (SameColumn checks) (a.map fun column => { column with shape := canonicalShape column.shape })
      (b.map fun column => { column with shape := canonicalShape column.shape })) : List.Forall₂ (SameColumn checks) a b := by
  rw [List.forall₂_map_left_iff, List.forall₂_map_right_iff] at h
  exact h.imp fun _ _ => SameColumn.of_canonical

theorem formatText_eq {a b : AttachmentFormat} (h : a.text = b.text) : a = b := by
  cases a <;> cases b <;> first | rfl | exact absurd h (by decide)

theorem texts_inj {a b : List String} (h : (Json.arr (a.map Json.text) : Json NumberText).normal =
      (Json.arr (b.map Json.text)).normal) : a = b := by
  simp only [Json.normal_arr, Json.arr.injEq, List.map_map] at h
  exact List.map_injective_iff.mpr (fun _ _ hxy => Json.normal_text_inj.mp hxy) h

/-- Outputs of one canonical text answer the same. -/
theorem answersWithin_of_normal_eq (h : (outputJson (canonicalOutput o)).normal = (outputJson (canonicalOutput p)).normal) :
    AnswersWithin checks (some p) (some o) := by
  have htype := outputType_eq h
  have hpart := outputPart_eq h
  match o, p with
  | .schema s, .schema t =>
    intro value hv
    have hsame : Same checks s t := same_of_canonical_text (Json.canonicalText_eq_iff.mpr h)
    rw [hsame.value]
    exact hv
  | .attachment a, .attachment b =>
    refine ⟨(formatText_eq (Json.normal_text_inj.mp (Option.some.inj (hpart "format")))).symm,
      (Json.normal_text_inj.mp (Option.some.inj (hpart "filename"))).symm,
      (numberJson_inj (Option.some.inj (hpart "maxBytes"))).symm, (numberJson_inj (Option.some.inj (hpart "maxRows"))).symm, ?_⟩
    exact forall₂_of_canonical (columns_same (Option.some.inj (hpart "columns")).symm)
  | .redirect a, .redirect b =>
    intro origin
    have horigins : sorted a = sorted b := texts_inj (Option.some.inj (hpart "origins"))
    have hb : origin ∈ sorted b ↔ origin ∈ b := mem_sorted
    rw [← hb, ← horigins, mem_sorted]
  | .schema s, .attachment _ => exact ((typeName_ne _).1 htype).elim
  | .schema s, .redirect _ => exact ((typeName_ne _).2 htype).elim
  | .attachment _, .schema s => exact ((typeName_ne _).1 htype.symm).elim
  | .redirect _, .schema s => exact ((typeName_ne _).2 htype.symm).elim
  | .attachment _, .redirect _ => exact absurd htype (by simp [outputType, canonicalOutput])
  | .redirect _, .attachment _ => exact absurd htype (by simp [outputType, canonicalOutput])

theorem answersWithin_of_text {before after : Option OutputShape} (h : outputText before = outputText after) :
    AnswersWithin checks after before := by
  have hnull : ∀ o : OutputShape, (outputJson (canonicalOutput o)).normal ≠ .null := fun o => by
    simp [outputJson_eq, Json.object]
  rw [outputText, outputText, Json.canonicalText_eq_iff] at h
  cases before with
  | none =>
    cases after with
    | none => trivial
    | some o => exact (hnull o h.symm).elim
  | some o =>
    cases after with
    | none => exact (hnull o h).elim
    | some p => exact answersWithin_of_normal_eq h

/-! ## Changes that break nobody -/

theorem problemUnless_eq_nil {holds : Bool} {problem : String} : problemUnless holds problem = [] ↔ holds = true := by
  cases holds <;> simp [problemUnless]

theorem procedureBreaks_sound {before after : ProcedureRow} {queryBefore queryAfter : Option Shape}
    (h : procedureBreaks before after queryBefore queryAfter = []) :
    AcceptsUnmet checks before.input after.input ∧ AcceptsUnmet checks queryBefore queryAfter ∧
    AnswersWithin checks after.output before.output := by
  simp only [procedureBreaks, List.append_eq_nil_iff, problemUnless_eq_nil, Bool.and_eq_true, beq_iff_eq] at h
  obtain ⟨⟨⟨⟨⟨hinput, hquery⟩, houtput⟩, -⟩, -⟩, -⟩ := h
  exact ⟨acceptsEveryInput_sound hinput, acceptsEveryInput_sound hquery, answersWithin_of_text houtput⟩

/-- The procedure a row's caller reaches after the change, which takes every call the row took. -/
def StillAnswers (checks : Checks) (before after : ContractArtifact) (mount : String) (row : ProcedureRow) : Prop :=
  ∃ next, (mountEndpoints after mount).find? (fun candidate => candidate.id == row.id) = some next
    ∧ AcceptsUnmet checks row.input next.input ∧ AcceptsUnmet checks (before.query row.id) (after.query row.id)
    ∧ AnswersWithin checks next.output row.output

theorem mount_keeps_answering {before after : ContractArtifact} (h : incompatibleMountChanges before after = []) {name : String}
    {mount : RpcMountArtifact} (hmount : before.mounts.lookup name = some (.rpc mount)) (hbackward : mount.backward = true)
    {row : ProcedureRow}
    (hrow : row ∈ mountEndpoints before name) : StillAnswers checks before after name row := by
  rw [incompatibleMountChanges, List.flatMap_eq_nil_iff] at h
  have hbreaks := h (name, .rpc mount) (Record.mem_pairs.mpr hmount)
  simp only [mountBreaks, hbackward, Bool.not_true, Bool.false_eq_true, if_false] at hbreaks
  split at hbreaks
  · cases hbreaks
  · have hnone := List.flatMap_eq_nil_iff.mp hbreaks row hrow
    unfold rowBreaks at hnone
    split at hnone
    · cases hnone
    · next next hnext => exact ⟨next, hnext, procedureBreaks_sound hnone⟩

theorem export_keeps_answering {before after : ExportDescription} {procedures : List String}
    (h : incompatibleChanges before after procedures = [])
    {path : String} (hpath : path ∈ procedures) {old : ExportProcedureDescription}
    (hold : before.procedures.lookup path = some old) :
    ∃ now, after.procedures.lookup path = some now ∧ AcceptsUnmet checks old.input now.input
      ∧ ∀ value, admits checks now.output value = true → admits checks old.output value = true := by
  rw [incompatibleChanges, List.append_eq_nil_iff, List.flatMap_eq_nil_iff] at h
  have hnone := h.2 path hpath
  rw [pathBreaks, hold] at hnone
  cases hnow : after.procedures.lookup path with
  | none =>
    rw [hnow] at hnone
    cases hnone
  | some now =>
    simp only [hnow, List.append_eq_nil_iff, problemUnless_eq_nil, beq_iff_eq] at hnone
    refine ⟨now, rfl, acceptsEveryInput_sound hnone.1, fun value hv => ?_⟩
    rw [(same_of_canonical_text hnone.2).value]
    exact hv

/-- Where no incompatible change is reported, the procedures are still there, no answer is new to a
    caller, and of the input and query values that were accepted exactly those still are that meet
    no new field which refuses what it inherits. A shape's canonical form admits what the shape
    admits. -/
theorem old_calls_still_work (checks : Checks) :
    (∀ before after : ContractArtifact, incompatibleMountChanges before after = [] → ∀ name mount,
      before.mounts.lookup name = some (.rpc mount) → mount.backward = true → ∀ row ∈ mountEndpoints before name,
        StillAnswers checks before after name row)
    ∧ (∀ before after : ExportDescription, ∀ procedures, incompatibleChanges before after procedures = [] → ∀ path ∈ procedures,
      ∀ old, before.procedures.lookup path = some old → ∃ now, after.procedures.lookup path = some now
        ∧ AcceptsUnmet checks old.input now.input ∧ ∀ value, admits checks now.output value = true →
        admits checks old.output value = true)
    ∧ ∀ shape value, admits checks (canonicalShape shape) value = admits checks shape value :=
  ⟨fun _ _ h _ _ hmount hbackward _ hrow => mount_keeps_answering h hmount hbackward hrow,
    fun _ _ _ h _ hpath _ hold => export_keeps_answering h hpath hold, fun shape value => (same_canonicalShape shape).value value⟩

/-! ## A field that is new -/

def noInput : Shape := ⟨.object [], rfl⟩

def optionalInput (name : String) : Shape := ⟨.object [(codeUnits name, .optional .boolean)], rfl⟩

def latestRow (input : Shape) : ProcedureRow :=
  { id := "notes.latest"
    source := { kind := .mount, name := "api" }
    method := .post
    path := "/api/notes.latest"
    access := .anonymous .public
    admission := none
    input := some input }

def promised : RpcMountArtifact := { path := "/api", callers := [], backward := true }

/-- A mount that promises backward compatibility, with one public query of the input. -/
def notes (input : Shape) : ContractArtifact := { mounts := ⟨[⟨"api", .rpc promised⟩], by simp⟩, endpoints := [latestRow input] }

/-- The same query on an export. -/
def notesExport (input : Shape) : ExportDescription :=
  { audience := "apps", procedures := ⟨[⟨"latest", ⟨some input, .boolean⟩⟩], by simp⟩ }

/-- Checks that refuse nothing. -/
def noChecks : Checks := ⟨fun _ _ => true, fun _ _ => true, fun _ _ => true⟩

/-- A call that passes no input. -/
def emptyCall : Wire := .json (.obj [])

theorem an_old_call_works_beside_a_new_note :
    StillAnswers noChecks (notes noInput) (notes (optionalInput "note")) "api" (latestRow noInput)
      ∧ ∃ now, (notesExport (optionalInput "note")).procedures.lookup "latest" = some now ∧
      AcceptsUnmet noChecks (some noInput) now.input
        ∧ admits noChecks (optionalInput "note").shape emptyCall = true := by
  have hworks := old_calls_still_work noChecks
  obtain ⟨now, hnow, haccepts, -⟩ :=
    hworks.2.1 (notesExport noInput) (notesExport (optionalInput "note")) ["latest"] (by decide) "latest"
    List.mem_cons_self ⟨some noInput, .boolean⟩ rfl
  refine ⟨hworks.1 (notes noInput) (notes (optionalInput "note")) (by decide) "api" promised rfl rfl (latestRow noInput) ?_,
    now, hnow, haccepts, ?_⟩
  · exact List.mem_cons_self
  · cases hnow
    exact (haccepts emptyCall rfl).mpr rfl

/-- Neither change check sees the new field, and the call without it is refused: `value.constructor`
    is the function every object inherits. -/
theorem a_new_constructor_breaks_old_calls :
    incompatibleMountChanges (notes noInput) (notes (optionalInput "constructor")) = []
      ∧ incompatibleChanges (notesExport noInput) (notesExport (optionalInput "constructor")) ["latest"] = []
      ∧ admits noChecks noInput.shape emptyCall = true ∧ admits noChecks (optionalInput "constructor").shape emptyCall
      = false := by
  decide

end Fabrika.App.Connect
