/-
  Fabrika.App.ParamsProofs — when a URL's parameters read back as the values that were sent.

  A parameter is text, and its field's shape says what the text may be. `alternatives` lists
  what the shape reads a text as, in the order it tries them; the first alternative that reads
  text as itself ends the search, so only the kinds before it (`early`) are ever taken.

  - `scalarOf_eq`: a text that spells a value of an early kind is read as that value, every
    other text as itself;
  - `reads_back_iff`: an object reads back exactly when each field it sends is `Told` and none it
    leaves out is one that every object inherits (`ToldObject`);
  - `told_params`: with it, `ctx.url` and the client write one query, and two told objects of
    one URL are one.
-/

import Fabrika.App.Params
import Fabrika.Lib.JsonParse

namespace Fabrika.App.Params

open Fabrika.Lib

/-! ## What a shape reads a text as -/

inductive Kind
  | number
  | boolean
  | null
  deriving DecidableEq

def kindOf : Scalar → Option Kind
  | .text _ => none
  | .number _ => some .number
  | .boolean _ => some .boolean
  | .null => some .null

mutual
/-- What the shape reads a text as, in order; `none` is the text itself. A `nullable` tries
    `null` first, unless what it wraps reads text. -/
def alternatives : SchemaShape → List (Option Kind)
  | .string _ => [none]
  | .enum _ => [none]
  | .number _ => [some .number]
  | .boolean => [some .boolean]
  | .null => [some .null]
  | .literal value => [kindOf value]
  | .optional inner => alternatives inner
  | .nullable inner => if none ∈ alternatives inner then alternatives inner else some .null :: alternatives inner
  | .union options => alternativesOf options
  | _ => []
def alternativesOf : List SchemaShape → List (Option Kind)
  | [] => []
  | option :: rest => alternatives option ++ alternativesOf rest
end

/-- The kinds before the first alternative that reads text. -/
def early (shape : SchemaShape) : List (Option Kind) := (alternatives shape).takeWhile Option.isSome

/-- The value a text spells, other than the text. -/
def spelled (text : Units) : Option Scalar :=
  match canonicalNumber text with
  | some number => some (.number number)
  | none =>
    if text = codeUnits "true" then some (.boolean true)
    else if text = codeUnits "false" then some (.boolean false)
    else if text = codeUnits "null" then some .null
    else none

theorem takeWhile_append_isSome (a b : List (Option Kind)) :
    (a ++ b).takeWhile Option.isSome = if none ∈ a then a.takeWhile Option.isSome else a ++ b.takeWhile Option.isSome := by
  induction a with
  | nil => simp
  | cons x a ih =>
    cases x with
    | none => simp
    | some k =>
      simp only [List.cons_append, List.takeWhile_cons, Option.isSome_some, if_true, ih, List.mem_cons, reduceCtorEq, false_or]
      split
      · rfl
      · rfl

mutual
theorem readsText_iff (shape : SchemaShape) : readsText shape = true ↔ none ∈ alternatives shape := by
  cases shape with
  | string _ => simp [readsText, alternatives]
  | number _ => simp [readsText, alternatives]
  | boolean => simp [readsText, alternatives]
  | null => simp [readsText, alternatives]
  | literal value => cases value <;> simp [readsText, alternatives, kindOf]
  | enum _ => simp [readsText, alternatives]
  | array _ _ _ => simp [readsText, alternatives]
  | tuple _ _ => simp [readsText, alternatives]
  | record _ _ => simp [readsText, alternatives]
  | object _ => simp [readsText, alternatives]
  | optional inner =>
    rw [readsText, alternatives]
    exact readsText_iff inner
  | nullable inner =>
    rw [readsText, alternatives, readsText_iff inner]
    split <;> simp_all
  | union options =>
    rw [readsText, alternatives]
    exact someReadsText_iff options
  | token _ => simp [readsText, alternatives]
  | file _ => simp [readsText, alternatives]
theorem someReadsText_iff (options : List SchemaShape) : someReadsText options = true ↔ none ∈ alternativesOf options := by
  cases options with
  | nil => simp [someReadsText, alternativesOf]
  | cons option rest =>
    rw [someReadsText, alternativesOf, Bool.or_eq_true, readsText_iff option, someReadsText_iff rest, List.mem_append]
end

/-- The text as one of the kinds, or as itself. -/
def readAs (kinds : List (Option Kind)) (text : Units) : Scalar :=
  match spelled text with
  | some value => if kindOf value ∈ kinds then value else .text text
  | none => .text text

theorem canonicalNumber_text (x : Double) : canonicalNumber x.text = some x := by
  simp [canonicalNumber, Double.read_text, finite?, Double.text_ne_nil]

variable {text name : Units} {value : Scalar} {shape : SchemaShape}

/-- A canonical number is written in digits, signs, a point and an exponent. -/
theorem isNumeralUnit_of_canonicalNumber {x : Double} (h : canonicalNumber text = some x) :
    ∀ u ∈ text, isNumeralUnit u = true := by
  unfold canonicalNumber at h
  split at h
  · split at h
    · rename_i hcanonical
      rw [← hcanonical.2]
      exact Double.isNumeralUnit_text _
    · cases h
  · cases h

theorem canonicalNumber_word {word : Units} {u : Nat} (hmem : u ∈ word) (hunit : isNumeralUnit u = false) :
    canonicalNumber word = none := by
  cases h : canonicalNumber word with
  | none => rfl
  | some x =>
    have := isNumeralUnit_of_canonicalNumber h u hmem
    rw [hunit] at this
    cases this

theorem canonicalNumber_true : canonicalNumber (codeUnits "true") = none := canonicalNumber_word (u := 0x74) (by decide) rfl

theorem canonicalNumber_false : canonicalNumber (codeUnits "false") = none := canonicalNumber_word (u := 0x66) (by decide) rfl

theorem canonicalNumber_null : canonicalNumber (codeUnits "null") = none := canonicalNumber_word (u := 0x6e) (by decide) rfl

theorem spelled_null : spelled (codeUnits "null") = some .null := by
  rw [spelled, canonicalNumber_null]
  rfl

variable {pairs : Urlencoded.Params}

/-- A value that is no text is what its spelling spells. -/
theorem spelled_spell {kind : Kind} (h : kindOf value = some kind) : spelled (spell value) = some value := by
  match value with
  | .number x => rw [spell, spelled, canonicalNumber_text]
  | .boolean true =>
    rw [spell, spelled, canonicalNumber_true]
    rfl
  | .boolean false =>
    rw [spell, spelled, canonicalNumber_false]
    rfl
  | .null => exact spelled_null

theorem spell_of_spelled (h : spelled text = some value) : spell value = text ∧ ∃ kind, kindOf value = some kind := by
  unfold spelled at h
  split at h
  · rename_i x hx
    cases h
    refine ⟨?_, _, rfl⟩
    unfold canonicalNumber at hx
    split at hx
    · split at hx
      · cases hx
        rename_i hcanonical
        exact hcanonical.2
      · cases hx
    · cases hx
  split at h
  · cases h
    exact ⟨Eq.symm ‹_›, _, rfl⟩
  split at h
  · cases h
    exact ⟨Eq.symm ‹_›, _, rfl⟩
  split at h
  · cases h
    exact ⟨Eq.symm ‹_›, _, rfl⟩
  · cases h

theorem numberOf_eq (text : Units) : numberOf text = readAs [some .number] text := by
  unfold numberOf readAs spelled
  cases canonicalNumber text with
  | some x => simp [kindOf]
  | none =>
    dsimp only
    split <;> rename_i hvalue
    · split at hvalue
      · cases hvalue
        rfl
      split at hvalue
      · cases hvalue
        rfl
      split at hvalue
      · cases hvalue
        rfl
      · cases hvalue
    · rfl

theorem booleanOf_eq (text : Units) : booleanOf text = readAs [some .boolean] text := by
  unfold booleanOf readAs
  by_cases htrue : text = codeUnits "true"
  · rw [if_pos htrue, htrue, spelled, canonicalNumber_true]
    rfl
  by_cases hfalse : text = codeUnits "false"
  · rw [if_neg htrue, if_pos hfalse, hfalse, spelled, canonicalNumber_false]
    rfl
  rw [if_neg htrue, if_neg hfalse, spelled]
  cases canonicalNumber text with
  | some x => simp [kindOf]
  | none =>
    by_cases hnull : text = codeUnits "null"
    · rw [hnull]
      rfl
    · simp [htrue, hfalse, hnull]

/-- Only `null` spells a null. -/
theorem eq_null_of_spelled (h : spelled text = some value) (hkind : kindOf value = some .null) : text = codeUnits "null" := by
  cases value with
  | null => exact (spell_of_spelled h).1.symm
  | text _ => cases hkind
  | number _ => cases hkind
  | boolean _ => cases hkind

theorem readAs_null_cons (kinds : List (Option Kind)) (text : Units) :
    readAs (some .null :: kinds) text = if text = codeUnits "null" then .null else readAs kinds text := by
  unfold readAs
  by_cases h : text = codeUnits "null"
  · rw [if_pos h, h, spelled_null]
    simp [kindOf]
  · rw [if_neg h]
    cases hspelled : spelled text with
    | none => rfl
    | some value =>
      have hkind : kindOf value ≠ some .null := fun hkind => h (eq_null_of_spelled hspelled hkind)
      simp [hkind]

theorem nullOf_eq (text : Units) : nullOf text = readAs [some .null] text := by
  rw [readAs_null_cons, nullOf]
  unfold readAs
  cases spelled text <;> rfl

theorem readAs_nil (text : Units) : readAs [] text = .text text := by
  unfold readAs
  cases spelled text <;> rfl

theorem differs_readAs (kinds : List (Option Kind)) (text : Units) :
    differs (readAs kinds text) text = true ↔ ∃ value, spelled text = some value ∧ kindOf value ∈ kinds := by
  unfold readAs
  cases hspelled : spelled text with
  | none => simp [differs]
  | some value =>
    by_cases hkind : kindOf value ∈ kinds
    · have hdiffers : differs value text = true := by
        obtain ⟨_, kind, hvalue⟩ := spell_of_spelled hspelled
        cases value with
        | text _ => cases hvalue
        | number _ => rfl
        | boolean _ => rfl
        | null => rfl
      simp [hkind, hdiffers]
    · simp [hkind, differs]

theorem readAs_of_mem {kinds : List (Option Kind)} (h : spelled text = some value) (hkind : kindOf value ∈ kinds) :
    readAs kinds text = value := by
  simp [readAs, h, hkind]

/-- The kinds in front do not matter to a text of none of them. -/
theorem readAs_append {front : List (Option Kind)} (h : differs (readAs front text) text = false) (kinds : List (Option Kind)) :
    readAs (front ++ kinds) text = readAs kinds text := by
  have hnone : ¬∃ value, spelled text = some value ∧ kindOf value ∈ front := by
    rw [← differs_readAs, h]
    simp
  unfold readAs
  cases hspelled : spelled text with
  | none => rfl
  | some value =>
    have hfront : kindOf value ∉ front := fun hmem => hnone ⟨value, hspelled, hmem⟩
    simp [List.mem_append, hfront]

theorem early_eq_of_not_mem (h : none ∉ alternatives shape) : early shape = alternatives shape := by
  have hwhole := takeWhile_append_isSome (alternatives shape) []
  rwa [if_neg h, List.append_nil, List.takeWhile_nil, List.append_nil] at hwhole

mutual
theorem scalarOf_eq (shape : SchemaShape) (text : Units) : scalarOf shape text = readAs (early shape) text := by
  cases shape with
  | string _ => exact (readAs_nil text).symm
  | number _ => exact numberOf_eq text
  | boolean => exact booleanOf_eq text
  | null => exact nullOf_eq text
  | literal value =>
    cases value with
    | text _ => exact (readAs_nil text).symm
    | number _ => exact numberOf_eq text
    | boolean _ => exact booleanOf_eq text
    | null => exact nullOf_eq text
  | enum _ => exact (readAs_nil text).symm
  | array _ _ _ => exact (readAs_nil text).symm
  | tuple _ _ => exact (readAs_nil text).symm
  | record _ _ => exact (readAs_nil text).symm
  | object _ => exact (readAs_nil text).symm
  | optional inner => exact scalarOf_eq inner text
  | nullable inner =>
    have hinner := scalarOf_eq inner text
    by_cases htext : none ∈ alternatives inner
    · have hreads := (readsText_iff inner).mpr htext
      rw [scalarOf, if_neg (by simp [hreads]), hinner, early, early, alternatives, if_pos htext]
    · have hreads : readsText inner = false := by
        rw [← Bool.not_eq_true, readsText_iff]
        exact htext
      have hearly : early (.nullable inner) = some .null :: early inner := by
        rw [early, alternatives, if_neg htext]
        rfl
      rw [scalarOf, hearly, readAs_null_cons, hinner]
      simp [hreads]
  | union options => exact scalarOfOptions_eq options text
  | token _ => exact (readAs_nil text).symm
  | file _ => exact (readAs_nil text).symm
theorem scalarOfOptions_eq (options : List SchemaShape) (text : Units) :
    scalarOfOptions options text = readAs ((alternativesOf options).takeWhile Option.isSome) text := by
  cases options with
  | nil => exact (readAs_nil text).symm
  | cons option rest =>
    rw [scalarOfOptions, alternativesOf, takeWhile_append_isSome, scalarOf_eq option text]
    by_cases htext : none ∈ alternatives option
    · have hreads := (readsText_iff option).mpr htext
      rw [if_pos (by simp [hreads]), if_pos htext]
      rfl
    · have hreads : readsText option = false := by
        rw [← Bool.not_eq_true, readsText_iff]
        exact htext
      rw [if_neg htext, hreads, Bool.or_false, early_eq_of_not_mem htext]
      by_cases hdiffers : differs (readAs (alternatives option) text) text = true
      · obtain ⟨value, hspelled, hkind⟩ := (differs_readAs _ _).mp hdiffers
        rw [if_pos hdiffers, readAs_of_mem hspelled hkind, readAs_of_mem hspelled (List.mem_append_left _ hkind)]
      · rw [if_neg hdiffers, readAs_append (Bool.not_eq_true _ ▸ hdiffers)]
        exact scalarOfOptions_eq rest text
end

/-- What makes a scalar read back: a kind its shape takes before any text, or a text that
    spells nothing of such a kind. -/
def Told (shape : SchemaShape) : Scalar → Prop
  | .text text => ∀ value, spelled text = some value → kindOf value ∉ early shape
  | value => kindOf value ∈ early shape

theorem scalarOf_text_iff (shape : SchemaShape) (sent text : Units) :
    scalarOf shape sent = .text text ↔ sent = text ∧ Told shape (.text text) := by
  rw [scalarOf_eq]
  unfold readAs
  cases hspelled : spelled sent with
  | none =>
    simp only [Scalar.text.injEq]
    constructor
    · rintro rfl
      exact ⟨rfl, fun value hvalue => by rw [hspelled] at hvalue; cases hvalue⟩
    · exact And.left
  | some value =>
    obtain ⟨_, kind, hkind⟩ := spell_of_spelled hspelled
    by_cases hmem : kindOf value ∈ early shape
    · simp only [hmem, if_true]
      constructor
      · rintro rfl
        cases hkind
      · rintro ⟨rfl, htold⟩
        exact absurd hmem (htold value hspelled)
    · simp only [hmem, if_false, Scalar.text.injEq]
      constructor
      · rintro rfl
        refine ⟨rfl, fun other hother => ?_⟩
        rw [hspelled] at hother
        cases hother
        exact hmem
      · exact And.left

theorem scalarOf_spell_iff (shape : SchemaShape) (value : Scalar) : scalarOf shape (spell value) = value ↔ Told shape value := by
  have hkind : ∀ kind, kindOf value = some kind → (scalarOf shape (spell value) = value ↔ kindOf value ∈ early shape) := by
    intro kind hkind
    rw [scalarOf_eq, readAs, spelled_spell hkind]
    by_cases hmem : kindOf value ∈ early shape
    · simp [hmem]
    · simp only [hmem, if_false, iff_false]
      intro heq
      rw [← heq] at hkind
      cases hkind
  cases value with
  | text text =>
    rw [spell, scalarOf_text_iff]
    simp
  | number x => exact hkind _ rfl
  | boolean b => exact hkind _ rfl
  | null => exact hkind _ rfl

/-! ## Texts as the URL carries them -/

/-- The spelling of a value that is no text is ASCII. -/
theorem isUnicode_spell {kind : Kind} (h : kindOf value = some kind) : IsUnicode (spell value) := by
  match value with
  | .number x => exact Json.isUnicode_numeral x
  | .boolean true => exact ⟨_, rfl⟩
  | .boolean false => exact ⟨_, rfl⟩
  | .null => exact ⟨_, rfl⟩

/-! ## Sending an object -/

/-- The entries a URL carries. -/
def present (object : Object) : List (Units × Scalar) :=
  object.filterMap fun entry => match entry.2 with
    | .scalar value => some (entry.1, value)
    | _ => none

def sentPair (entry : Units × Scalar) : String × String := (usvString entry.1, usvString (spell entry.2))

/-- No value but scalars and `undefined`. -/
def AllScalar (object : Object) : Prop := ∀ entry ∈ object, ∀ text, entry.2 ≠ .other text

theorem set_eq_append {name : String} {params : Urlencoded.Params} (h : name ∉ params.map Prod.fst) (value : String) :
    Urlencoded.set name value params = params ++ [(name, value)] := by
  induction params with
  | nil => rfl
  | cons pair rest ih =>
    rw [List.map_cons, List.mem_cons, not_or] at h
    obtain ⟨other, old⟩ := pair
    rw [Urlencoded.set, if_neg (Ne.symm h.1), ih h.2]
    rfl

theorem foldl_set {params : Urlencoded.Params} (h : ((params ++ pairs).map Prod.fst).Nodup) :
    pairs.foldl (fun search pair => Urlencoded.set pair.1 pair.2 search) params = params ++ pairs := by
  induction pairs generalizing params with
  | nil => simp
  | cons pair rest ih =>
    have hfresh : pair.1 ∉ params.map Prod.fst := by
      rw [List.map_append, List.nodup_append'] at h
      exact fun hmem => h.2.2 hmem (by simp)
    rw [List.foldl_cons, set_eq_append hfresh, ih (by simpa using h), List.append_assoc]
    rfl

theorem clientParams_eq_foldl {object : Object} (h : AllScalar object) :
    clientParams object = ((present object).map sentPair).foldl (fun search pair => Urlencoded.set pair.1 pair.2 search) [] := by
  unfold clientParams
  generalize ([] : Urlencoded.Params) = params
  induction object generalizing params with
  | nil => rfl
  | cons entry rest ih =>
    obtain ⟨name, value⟩ := entry
    have hrest : AllScalar rest := fun other hother => h other (List.mem_cons_of_mem _ hother)
    cases value with
    | undefined => exact ih hrest params
    | scalar value => exact ih hrest _
    | other text => exact absurd rfl (h _ List.mem_cons_self text)

/-- `ctx.url` collects the parameters the client does. -/
theorem urlParams_eq {object : Object} (h : AllScalar object) (endpoint : String) :
    urlParams endpoint object = .ok (clientParams object) := by
  unfold urlParams clientParams
  generalize ([] : Urlencoded.Params) = params
  induction object generalizing params with
  | nil => rfl
  | cons entry rest ih =>
    obtain ⟨name, value⟩ := entry
    have hrest : AllScalar rest := fun other hother => h other (List.mem_cons_of_mem _ hother)
    cases value with
    | undefined => exact ih hrest params
    | scalar value => exact ih hrest _
    | other text => exact absurd rfl (h _ List.mem_cons_self text)

theorem mem_present {object : Object} : (name, value) ∈ present object ↔ (name, .scalar value) ∈ object := by
  simp only [present, List.mem_filterMap]
  constructor
  · rintro ⟨⟨other, found⟩, hmem, hfound⟩
    cases found with
    | scalar found =>
      cases hfound
      exact hmem
    | undefined => cases hfound
    | other _ => cases hfound
  · intro hmem
    exact ⟨_, hmem, rfl⟩

theorem names_present (object : Object) : ((present object).map Prod.fst).Sublist (object.map Prod.fst) := by
  induction object with
  | nil => exact List.Sublist.slnil
  | cons entry rest ih =>
    obtain ⟨name, value⟩ := entry
    cases value with
    | scalar value => exact ih.cons_cons name
    | undefined => exact ih.cons name
    | other text => exact ih.cons name

theorem clientParams_eq {object : Object} (hscalar : AllScalar object) (hnodup : (object.map Prod.fst).Nodup)
    (hunicode : ∀ entry ∈ present object, IsUnicode entry.1) : clientParams object = (present object).map sentPair := by
  rw [clientParams_eq_foldl hscalar, foldl_set, List.nil_append]
  rw [List.nil_append, List.map_map]
  have hpresent := hnodup.sublist (names_present object)
  rw [List.Nodup, List.pairwise_map] at hpresent ⊢
  refine hpresent.imp_of_mem fun ha hb hne heq => hne ?_
  exact usvString_inj (hunicode _ ha) (hunicode _ hb) heq

/-! ## Reading the query -/

theorem paramsObject_append {shape : Option SchemaShape} {read : Object}
    (hnodup : (read.map Prod.fst ++ pairs.map fun pair => codeUnits pair.1).Nodup) :
    pairs.foldlM (readParam shape) read = .ok (read ++ (pairs.filter fun pair => codeUnits pair.1 ≠
      codeUnits "__proto__").map fun pair =>
      (codeUnits pair.1, .scalar (readField shape (codeUnits pair.1) (codeUnits pair.2)))) := by
  induction pairs generalizing read with
  | nil => simp; rfl
  | cons pair rest ih =>
    have hfresh : read.lookup (codeUnits pair.1) = none := by
      rw [List.lookup_eq_none_iff]
      intro entry hentry
      rw [List.nodup_append'] at hnodup
      refine bne_iff_ne.mpr fun heq => hnodup.2.2 (List.mem_map_of_mem hentry) ?_
      rw [← heq]
      exact List.mem_cons_self
    have hstep : readParam shape read pair = .ok (assign read (codeUnits pair.1)
        (readField shape (codeUnits pair.1) (codeUnits pair.2))) := by
      simp [readParam, hfresh]
    rw [List.foldlM_cons, hstep]
    show rest.foldlM (readParam shape) _ = _
    unfold assign
    by_cases hproto : codeUnits pair.1 = codeUnits "__proto__"
    · rw [if_pos hproto, ih, List.filter_cons_of_neg (by simp [hproto])]
      exact hnodup.sublist ((List.sublist_cons_self _ _).append_left _)
    · rw [if_neg hproto, ih, List.filter_cons_of_pos (by simp [hproto]), List.map_cons, List.append_assoc]
      · rfl
      · simpa using hnodup

/-- The names of an object that was read are texts a URL carries. -/
theorem isUnicode_of_read {shape : Option SchemaShape} {start read : Object} (hstart : ∀ entry ∈ start, IsUnicode entry.1)
    (h : pairs.foldlM (readParam shape) start = .ok read) : ∀ entry ∈ read, IsUnicode entry.1 := by
  induction pairs generalizing start with
  | nil =>
    cases h
    exact hstart
  | cons pair rest ih =>
    rw [List.foldlM_cons] at h
    unfold readParam at h
    dsimp only at h
    split at h
    · cases h
    · refine @ih (assign start _ _) ?_ h
      intro entry hentry
      unfold assign at hentry
      split at hentry
      · exact hstart entry hentry
      · rcases List.mem_append.mp hentry with hentry | hentry
        · exact hstart entry hentry
        · rw [List.mem_singleton.mp hentry]
          exact ⟨_, rfl⟩

/-! ## What reads back -/

/-- One object read as the other: a field that is absent is `undefined`, unless every object inherits
    a member of the name. -/
def SameObject (a b : Object) : Prop := ∀ name, valueAt a name = valueAt b name

/-- The query of the object, read by the shape, is an object the shape accepts and the one
    that was sent. -/
def ReadsBack (zod : Zod) (fields : Fields) (object : Object) : Prop :=
  ∃ read, paramsObject (Urlencoded.parse (queryText object)) (some (.object fields)) = .ok read ∧ acceptsObject zod fields read ∧
    SameObject read object

/-- Each name and text sent is one a URL carries, and each value is told from text by its
    field's shape. -/
structure ToldField (fields : Fields) (name : Units) (value : Scalar) : Prop where
  own : name ≠ codeUnits "__proto__"
  unicodeName : IsUnicode name
  unicodeText : ∀ text, value = .text text → IsUnicode text
  told : ∀ shape, fields.lookup name = some shape → Told shape value

structure ToldObject (fields : Fields) (object : Object) : Prop where
  sent : ∀ name value, (name, .scalar value) ∈ object → ToldField fields name value
  /-- Where nothing is sent, nothing is read. -/
  unsent : ∀ name, (name, .undefined) ∈ object → isInherited name = false

mutual
theorem not_accepts_other {zod : Zod} {shape : SchemaShape} (hcell : isCell shape = true) (text : Units) :
    ¬accepts zod shape (.other text) := by
  cases shape with
  | string _ => simp [accepts]
  | number _ => simp [accepts]
  | boolean => simp [accepts]
  | null => simp [accepts]
  | literal _ => simp [accepts]
  | enum _ => simp [accepts]
  | array _ _ _ => cases hcell
  | tuple _ _ => cases hcell
  | record _ _ => cases hcell
  | object _ => cases hcell
  | optional inner =>
    rw [isCell] at hcell
    simpa [accepts] using not_accepts_other hcell text
  | nullable inner =>
    rw [isCell] at hcell
    simpa [accepts] using not_accepts_other hcell text
  | union options =>
    rw [isCell] at hcell
    simpa [accepts] using not_acceptsSome_other hcell text
  | token _ => simp [accepts]
  | file _ => simp [accepts]
theorem not_acceptsSome_other {zod : Zod} {options : List SchemaShape} (hcells : everyCell options = true) (text : Units) :
    ¬acceptsSome zod options (.other text) := by
  cases options with
  | nil => simp [acceptsSome]
  | cons option rest =>
    rw [everyCell, Bool.and_eq_true] at hcells
    rw [acceptsSome, not_or]
    exact ⟨not_accepts_other hcells.1 text, not_acceptsSome_other hcells.2 text⟩
end

theorem not_accepts_of_parameter {zod : Zod} (h : isParameter shape = true) (text : Units) :
    ¬accepts zod shape (.other text) := by
  have htoken : ∀ {inner : SchemaShape}, isToken inner = true → ¬accepts zod inner (.other text) := by
    intro inner hinner
    cases inner with
    | token _ => simp [accepts]
    | _ => cases hinner
  rw [isParameter, Bool.or_eq_true, Bool.or_eq_true] at h
  rcases h with (hcell | hself) | hoptional
  · exact not_accepts_other hcell text
  · exact htoken hself
  · cases shape with
    | optional inner => simpa [accepts] using htoken hoptional
    | _ => cases hoptional

section
variable {zod : Zod} {fields : Fields} {object : Object}

theorem valueAt_of_mem (hnodup : (object.map Prod.fst).Nodup) {value : Value} (h : (name, value) ∈ object) :
    valueAt object name = some value := by
  rw [valueAt, (Json.lookup_eq_some_iff hnodup).mpr h]
  rfl

theorem mem_of_valueAt (h : valueAt object name = some (.scalar value)) : (name, .scalar value) ∈ object := by
  unfold valueAt at h
  cases hlookup : object.lookup name with
  | none =>
    rw [hlookup, Option.none_or] at h
    split at h <;> cases h
  | some found =>
    rw [hlookup] at h
    cases h
    obtain ⟨before, after, hsplit, -⟩ := List.lookup_eq_some_iff.mp hlookup
    rw [hsplit]
    simp

/-- An object without the name answers as the empty one does. -/
theorem valueAt_of_not_mem (h : ∀ value, (name, value) ∉ object) : valueAt object name = valueAt [] name := by
  have hnone : object.lookup name = none := by
    rw [List.lookup_eq_none_iff]
    intro entry hentry
    refine bne_iff_ne.mpr fun heq => h entry.2 ?_
    rw [heq]
    exact hentry
  rw [valueAt, hnone]
  rfl

/-- Of a flat shape, an accepted object holds scalars only. -/
theorem allScalar_of_accepts (hflat : flat fields = true) (hnodup : (object.map Prod.fst).Nodup)
    (haccepts : acceptsObject zod fields object) : AllScalar object := by
  intro entry hentry text heq
  obtain ⟨field, hfield, hname⟩ := List.mem_map.mp (haccepts.1 entry hentry)
  have hvalue : valueAt object field.1 = some (.other text) := by
    rw [hname, ← heq]
    exact valueAt_of_mem hnodup hentry
  have := haccepts.2 field hfield
  rw [hvalue] at this
  exact not_accepts_of_parameter (List.all_eq_true.mp hflat field hfield) text this

theorem readField_eq (h : fields.lookup name = some shape) (text : Units) :
    readField (some (.object fields)) name text = scalarOf shape text := by
  simp [readField, fieldsOf, h]

/-- A scalar that went through the URL is read as it was exactly when its field is told. -/
theorem readField_sent_iff (h : fields.lookup name = some shape) :
    readField (some (.object fields)) name (codeUnits (usvString (spell value))) = value ↔
      (∀ text, value = .text text → IsUnicode text) ∧ Told shape value := by
  rw [readField_eq h]
  have hkind : ∀ kind, kindOf value = some kind → (scalarOf shape (codeUnits (usvString (spell value))) = value ↔
      (∀ text, value = .text text → IsUnicode text) ∧ Told shape value) := by
    intro kind hkind
    rw [codeUnits_usvString (isUnicode_spell hkind), scalarOf_spell_iff]
    refine ⟨fun htold => ⟨?_, htold⟩, And.right⟩
    rintro text rfl
    cases hkind
  cases value with
  | text text =>
    rw [spell, scalarOf_text_iff]
    constructor
    · rintro ⟨hsame, htold⟩
      refine ⟨?_, htold⟩
      intro other hother
      cases hother
      exact ⟨_, hsame⟩
    · rintro ⟨hunicode, htold⟩
      exact ⟨codeUnits_usvString (hunicode text rfl), htold⟩
  | number x => exact hkind _ rfl
  | boolean b => exact hkind _ rfl
  | null => exact hkind _ rfl

/-- The field of an accepted name. -/
theorem exists_field (haccepts : acceptsObject zod fields object) {value : Value} (h : (name, value) ∈ object) :
    ∃ shape, fields.lookup name = some shape := by
  obtain ⟨field, hfield, rfl⟩ := List.mem_map.mp (haccepts.1 _ h)
  cases hlookup : fields.lookup field.1 with
  | some shape => exact ⟨shape, rfl⟩
  | none =>
    rw [List.lookup_eq_none_iff] at hlookup
    exact absurd rfl (bne_iff_ne.mp (hlookup field hfield))

/-- What is read of an object whose names a URL carries. -/
theorem paramsObject_queryText (hscalar : AllScalar object) (hnodup : (object.map Prod.fst).Nodup)
    (hunicode : ∀ entry ∈ present object, IsUnicode entry.1) (shape : Option SchemaShape) :
    paramsObject (Urlencoded.parse (queryText object)) shape =
      .ok (((present object).filter fun entry => entry.1 ≠ codeUnits "__proto__").map fun entry =>
        (entry.1, .scalar (readField shape entry.1 (codeUnits (usvString (spell entry.2)))))) := by
  have hname : ∀ entry ∈ present object, codeUnits (sentPair entry).1 = entry.1 := fun entry hentry =>
    codeUnits_usvString (hunicode entry hentry)
  have hnames : (present object).map (fun entry => codeUnits (sentPair entry).1) = (present object).map Prod.fst :=
    List.map_congr_left hname
  rw [queryText, Urlencoded.parse_serialize, clientParams_eq hscalar hnodup hunicode, paramsObject, paramsObject_append]
  · rw [List.nil_append, List.filter_map, List.map_map]
    congr 1
    have hfilter : (present object).filter ((fun pair : String × String => decide (codeUnits pair.1 ≠ codeUnits "__proto__"))
        ∘ sentPair) =
        (present object).filter fun entry => entry.1 ≠ codeUnits "__proto__" := by
      apply List.filter_congr
      intro entry hentry
      rw [Function.comp_apply, hname entry hentry]
    rw [hfilter]
    apply List.map_congr_left
    intro entry hentry
    rw [Function.comp_apply, hname entry (List.mem_of_mem_filter hentry)]
    rfl
  · rw [List.map_nil, List.nil_append, List.map_map]
    show ((present object).map fun entry => codeUnits (sentPair entry).1).Nodup
    rw [hnames]
    exact hnodup.sublist (names_present object)

/-- The entries the URL carries, as an object. -/
def sentObject (object : Object) : Object := (present object).map fun entry => (entry.1, .scalar entry.2)

theorem mem_sentObject : (name, .scalar value) ∈ sentObject object ↔ (name, .scalar value) ∈ object := by
  rw [sentObject, List.mem_map]
  constructor
  · rintro ⟨⟨other, found⟩, hmem, heq⟩
    obtain ⟨rfl, hvalue⟩ := Prod.mk.inj heq
    cases hvalue
    exact (mem_present).mp hmem
  · intro hmem
    exact ⟨_, (mem_present).mpr hmem, rfl⟩

theorem nodup_sentObject (hnodup : (object.map Prod.fst).Nodup) : ((sentObject object).map Prod.fst).Nodup := by
  rw [sentObject, List.map_map]
  exact hnodup.sublist (names_present object)

/-- The object that is read is the one that was sent where nothing is inherited for what is not. -/
theorem sameObject_sentObject (hscalar : AllScalar object) (hnodup : (object.map Prod.fst).Nodup)
    (hunsent : ∀ name, (name, .undefined) ∈ object → isInherited name = false) : SameObject (sentObject object) object := by
  intro name
  by_cases hname : ∃ value, (name, value) ∈ object
  · obtain ⟨value, hmem⟩ := hname
    rw [valueAt_of_mem hnodup hmem]
    cases value with
    | scalar value => exact valueAt_of_mem (nodup_sentObject hnodup) (mem_sentObject.mpr hmem)
    | other text => exact absurd rfl (hscalar _ hmem text)
    | undefined =>
      rw [valueAt_of_not_mem fun value hsent => ?_, valueAt, hunsent name hmem]
      · rfl
      · obtain ⟨⟨other, found⟩, hpresent, heq⟩ := List.mem_map.mp hsent
        obtain ⟨rfl, rfl⟩ := Prod.mk.inj heq
        have hsame := valueAt_of_mem hnodup ((mem_present).mp hpresent)
        rw [valueAt_of_mem hnodup hmem] at hsame
        cases hsame
  · rw [not_exists] at hname
    rw [valueAt_of_not_mem hname, valueAt_of_not_mem fun value hsent => ?_]
    obtain ⟨⟨other, found⟩, hpresent, heq⟩ := List.mem_map.mp hsent
    obtain ⟨rfl, -⟩ := Prod.mk.inj heq
    exact hname _ ((mem_present).mp hpresent)

/-- A told object is read as the entries sent. -/
theorem paramsObject_of_told (hscalar : AllScalar object) (hnodup : (object.map Prod.fst).Nodup)
    (haccepts : acceptsObject zod fields object)
    (htold : ToldObject fields object) :
    paramsObject (Urlencoded.parse (queryText object)) (some (.object fields)) = .ok (sentObject object) := by
  have hfield : ∀ entry ∈ present object, ToldField fields entry.1 entry.2 :=
    fun entry hentry => htold.sent _ _ ((mem_present).mp hentry)
  rw [paramsObject_queryText hscalar hnodup fun entry hentry => (hfield entry hentry).unicodeName]
  have hown : ((present object).filter fun entry => entry.1 ≠ codeUnits "__proto__") = present object := by
    rw [List.filter_eq_self]
    exact fun entry hentry => decide_eq_true (hfield entry hentry).own
  rw [hown]
  congr 1
  apply List.map_congr_left
  intro entry hentry
  obtain ⟨shape, hshape⟩ := exists_field haccepts ((mem_present).mp hentry)
  have htold := hfield entry hentry
  rw [(readField_sent_iff hshape).mpr ⟨htold.unicodeText, htold.told shape hshape⟩]

theorem reads_back_iff (hflat : flat fields = true) (hnodup : (object.map Prod.fst).Nodup)
    (haccepts : acceptsObject zod fields object) :
    ReadsBack zod fields object ↔ ToldObject fields object := by
  have hscalar := allScalar_of_accepts hflat hnodup haccepts
  constructor
  · rintro ⟨read, hread, -, hsame⟩
    have hback : ∀ {name value}, (name, .scalar value) ∈ object → (name, .scalar value) ∈ read := by
      intro name value hmem
      apply mem_of_valueAt
      rw [hsame name, valueAt_of_mem hnodup hmem]
    have hnames : ∀ entry ∈ present object, IsUnicode entry.1 := fun entry hentry =>
      isUnicode_of_read (List.forall_mem_nil _) hread _ (hback ((mem_present).mp hentry))
    rw [paramsObject_queryText hscalar hnodup hnames] at hread
    cases hread
    refine ⟨fun name value hmem => ?_, fun name hmem => ?_⟩
    swap
    · by_contra hinherited
      have hread := hsame name
      rw [valueAt_of_mem hnodup hmem, valueAt_of_not_mem fun value hsent => ?_, valueAt, eq_true_of_ne_false hinherited] at hread
      · cases hread
      · obtain ⟨entry, hentry, heq⟩ := List.mem_map.mp hsent
        obtain ⟨rfl, -⟩ := Prod.mk.inj heq
        have hagain := valueAt_of_mem hnodup ((mem_present).mp (List.mem_of_mem_filter hentry))
        rw [valueAt_of_mem hnodup hmem] at hagain
        cases hagain
    obtain ⟨shape, hshape⟩ := exists_field haccepts hmem
    have hmem' := hback hmem
    obtain ⟨⟨name', value'⟩, hentry, heq⟩ := List.mem_map.mp hmem'
    rw [List.mem_filter] at hentry
    obtain ⟨rfl, hvalue⟩ := Prod.mk.inj heq
    have hvalue' : value' = value := by
      have h := valueAt_of_mem hnodup ((mem_present).mp hentry.1)
      rw [valueAt_of_mem hnodup hmem] at h
      cases h
      rfl
    subst hvalue'
    have hsent := (readField_sent_iff hshape).mp (Value.scalar.inj hvalue)
    refine ⟨of_decide_eq_true hentry.2, hnames _ hentry.1, hsent.1, ?_⟩
    intro other hother
    rw [hshape] at hother
    cases hother
    exact hsent.2
  · intro htold
    have hsame := sameObject_sentObject hscalar hnodup htold.unsent
    refine ⟨_, paramsObject_of_told hscalar hnodup haccepts htold, ⟨?_, ?_⟩, hsame⟩
    · intro entry hentry
      obtain ⟨sent, hsent, rfl⟩ := List.mem_map.mp hentry
      exact haccepts.1 _ ((mem_present).mp hsent)
    · intro field hfield
      rw [hsame field.1]
      exact haccepts.2 field hfield

/-- Told objects of one query are one. -/
theorem sameObject_of_queryText {other : Object} (hflat : flat fields = true) (hnodup : (object.map Prod.fst).Nodup)
    (hnodup' : (other.map Prod.fst).Nodup) (haccepts : acceptsObject zod fields object)
    (haccepts' : acceptsObject zod fields other)
    (htold : ToldObject fields object) (htold' : ToldObject fields other) (h : queryText object = queryText other) :
    SameObject object other := by
  have hscalar := allScalar_of_accepts hflat hnodup haccepts
  have hscalar' := allScalar_of_accepts hflat hnodup' haccepts'
  have hread := paramsObject_of_told hscalar hnodup haccepts htold
  rw [h, paramsObject_of_told hscalar' hnodup' haccepts' htold'] at hread
  intro name
  rw [← sameObject_sentObject hscalar hnodup htold.unsent name, ← sameObject_sentObject hscalar' hnodup' htold'.unsent name,
    Except.ok.inj hread]

theorem queryText_of_withParams {url : Urlencoded.Bytes} {other : Object} (h : withParams url object = withParams url other) :
    queryText object = queryText other := by
  unfold withParams at h
  split at h <;> rename_i hquery
  · split at h <;> rename_i hquery'
    · rw [hquery, hquery']
    · simp at h
  · split at h <;> rename_i hquery'
    · simp at h
    · simpa using h

/-- `ctx.url` of what a procedure reads from the URL is the client's URL of it. -/
theorem appUrl_eq (hscalar : AllScalar object) {artifact : Artifact} {row : EndpointRow}
    (hrow : procedureRow artifact row.id = some row)
    {parameters : UrlParameters}
    (hparameters : (row.method = .get ∧ parameters = ⟨some object, none⟩) ∨
      (row.method ≠ .get ∧ artifact.queries.contains row.id = true ∧ parameters = ⟨none, some object⟩))
    (origin : Urlencoded.Bytes) : appUrl artifact (some origin) row.id parameters =
    .ok (withParams (origin ++ row.path) object) := by
  have hurl : withParams (origin ++ row.path) object = origin ++ row.path ++
      (if queryText object = [] then [] else 0x3f :: queryText object) := by
    unfold withParams
    split
    · simp
    · rfl
  rw [hurl]
  rcases hparameters with ⟨hget, rfl⟩ | ⟨hpost, hquery, rfl⟩
  · simp [appUrl, hrow, hget, urlParams_eq hscalar, queryText]
    rfl
  · simp [appUrl, hrow, hpost, urlParams_eq hscalar, queryText, List.contains_iff_mem.mp hquery]
    rfl

end

/-! ## The parameters of a URL -/

theorem told_params (zod : Zod) {fields : Fields} (hflat : flat fields = true) {object : Object}
    (hnodup : (object.map Prod.fst).Nodup)
    (haccepts : acceptsObject zod fields object) :
    (ReadsBack zod fields object ↔ ToldObject fields object) ∧
    (∀ (artifact : Artifact) (row : EndpointRow) (parameters : UrlParameters) (origin : Urlencoded.Bytes),
      procedureRow artifact row.id = some row →
      (row.method = .get ∧ parameters = ⟨some object, none⟩) ∨
        (row.method ≠ .get ∧ artifact.queries.contains row.id = true ∧ parameters = ⟨none, some object⟩) →
      appUrl artifact (some origin) row.id parameters = .ok (withParams (origin ++ row.path) object)) ∧
    ∀ (url : Urlencoded.Bytes) (other : Object), (other.map Prod.fst).Nodup → acceptsObject zod fields other →
      ToldObject fields object → ToldObject fields other → withParams url object = withParams url other →
      SameObject object other := by
  refine ⟨reads_back_iff hflat hnodup haccepts, ?_, ?_⟩
  · intro artifact row parameters origin hrow hparameters
    exact appUrl_eq (allScalar_of_accepts hflat hnodup haccepts) hrow hparameters origin
  · intro url other hnodup' haccepts' htold htold' hurl
    exact sameObject_of_queryText hflat hnodup hnodup' haccepts haccepts' htold htold' (queryText_of_withParams hurl)

def anyText : SchemaShape := .string ⟨none, none, none, none, none, none, none⟩

def anyNumber : SchemaShape := .number ⟨false, none, false, none, false, none⟩

/-- Checks that refuse nothing but a function. -/
def lenient : Zod := ⟨fun _ _ => true, fun _ _ => true, fun _ _ => true, fun _ _ => false⟩

/-- A page of a search: an optional number beside a text. -/
def searchFields : Fields := [(codeUnits "page", .optional anyNumber), (codeUnits "q", anyText)]

def searchInput : Object := [(codeUnits "page", .undefined), (codeUnits "q", .scalar (.text (codeUnits "null & void")))]

theorem searchInput_reads_back :
    (searchInput.map Prod.fst).Nodup ∧ acceptsObject lenient searchFields searchInput ∧
    ReadsBack lenient searchFields searchInput := by
  have hnodup : (searchInput.map Prod.fst).Nodup := by decide
  have haccepts : acceptsObject lenient searchFields searchInput := by
    refine ⟨by simp [searchInput, searchFields], ?_⟩
    intro field hfield
    simp only [searchFields, List.mem_cons, List.not_mem_nil, or_false] at hfield
    obtain rfl | rfl := hfield
    · exact .inl rfl
    · exact rfl
  refine ⟨hnodup, haccepts, ((told_params lenient rfl hnodup haccepts).1).mpr ⟨fun name value hmem => ?_, fun name hmem => ?_⟩⟩
  swap
  · simp only [searchInput, List.mem_cons, Prod.mk.injEq, reduceCtorEq, and_false, List.not_mem_nil, or_false, and_true] at hmem
    rw [hmem]
    decide
  simp only [searchInput, List.mem_cons, Prod.mk.injEq, reduceCtorEq, and_false, false_or, List.not_mem_nil, or_false,
    Value.scalar.injEq] at hmem
  obtain ⟨rfl, rfl⟩ := hmem
  refine ⟨by decide, ⟨_, rfl⟩, ?_, ?_⟩
  · intro text htext
    cases htext
    exact ⟨_, rfl⟩
  · intro shape hshape
    cases hshape
    intro value _
    exact List.not_mem_nil

/-- A page size that may be `all`, beside a nullable text. -/
def listFields : Fields :=
  [(codeUnits "size", .union [.literal (.text (codeUnits "all")), anyNumber]), (codeUnits "note", .nullable anyText)]

def five : Double := ⟨5, 5, 0, by norm_num, by norm_num, by norm_num, by norm_num⟩

def fiveRows : Object := [(codeUnits "size", .scalar (.number five)), (codeUnits "note", .scalar (.text []))]

def noNote : Object := [(codeUnits "size", .scalar (.text (codeUnits "all"))), (codeUnits "note", .scalar .null)]

/-- An optional text under a name every object inherits. -/
def makerFields : Fields := [(codeUnits "constructor", .optional anyText)]

def noMaker : Object := [(codeUnits "constructor", .undefined)]

/-- `5` is read as the text `5`, which the shape refuses, and `null` of a nullable text as the
    text `null`. A `constructor` that is not sent is read as a function. -/
theorem listFields_not_told :
    flat listFields = true ∧
    (acceptsObject lenient listFields fiveRows ∧ ¬ReadsBack lenient listFields fiveRows) ∧
    (acceptsObject lenient listFields noNote ∧ ¬ReadsBack lenient listFields noNote) ∧
    flat makerFields = true ∧ acceptsObject lenient makerFields noMaker ∧ ¬ReadsBack lenient makerFields noMaker := by
  have hmaker : acceptsObject lenient makerFields noMaker := by
    refine ⟨by simp [noMaker, makerFields], ?_⟩
    intro field hfield
    rw [List.mem_singleton.mp hfield]
    exact .inl rfl
  have hfive : acceptsObject lenient listFields fiveRows := by
    refine ⟨by simp [fiveRows, listFields], ?_⟩
    intro field hfield
    simp only [listFields, List.mem_cons, List.not_mem_nil, or_false] at hfield
    obtain rfl | rfl := hfield
    · exact .inr (.inl rfl)
    · exact .inr rfl
  have hnone : acceptsObject lenient listFields noNote := by
    refine ⟨by simp [noNote, listFields], ?_⟩
    intro field hfield
    simp only [listFields, List.mem_cons, List.not_mem_nil, or_false] at hfield
    obtain rfl | rfl := hfield
    · exact .inl rfl
    · exact .inl rfl
  refine ⟨rfl, ⟨hfive, ?_⟩, ⟨hnone, ?_⟩, rfl, hmaker, ?_⟩
  · rw [reads_back_iff rfl (by decide) hfive]
    intro htold
    have hnumber : kindOf (.number five) ∈ early (.union [.literal (.text (codeUnits "all")), anyNumber]) :=
      (htold.sent (codeUnits "size") (.number five) (by simp [fiveRows])).told _ rfl
    exact absurd hnumber List.not_mem_nil
  · rw [reads_back_iff rfl (by decide) hnone]
    intro htold
    have hnull : kindOf .null ∈ early (.nullable anyText) := (htold.sent (codeUnits "note") .null (by simp [noNote])).told _ rfl
    exact absurd hnull List.not_mem_nil
  · rw [reads_back_iff rfl (by decide) hmaker]
    intro htold
    exact absurd (htold.unsent (codeUnits "constructor") List.mem_cons_self) (by decide)

end Fabrika.App.Params
