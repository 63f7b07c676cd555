/-
  Fabrika.Db.JsonColumnProofs — what a JSON column takes and what it gives back.

  A value is refused exactly when it nests more than 64 deep, contains itself, or holds one of
  the faults of `Fault`; the guard against depth is what ends the walk of a value that contains
  itself. The text of every other value is well-formed JSON and parses to the value as it
  stands, less the members that are undefined, `-0` read as `0` (`jsonInput_exact`).

  Not every fault is one of a JSON value in the usual sense: an array with a named property of
  its own is refused (`named_property_refused`), while the name of an undefined member may be
  any text, since the member is left out (`undefined_member_ignored`).
-/

import Fabrika.Db.JsonColumn

namespace Fabrika.Db.JsonColumn

open Fabrika.Lib
open Fabrika.Lib.Double (Number)

variable {Ref : Type} {α : Type}

/-! ## Texts -/

/-- No NUL and no lone surrogate. -/
def IsText (s : Units) : Prop := 0 ∉ s ∧ IsUnicode s

variable {t where_ : Units} {array : ArrayObject Ref} {values : List (Value Ref)} {part value : Value Ref} {ref : Ref}
variable {object : PlainObject Ref} {left : Nat}

variable {n : Nat}

theorem loneSurrogateFrom_plain {u : Nat} (hhigh : Json.isHighSurrogate u = false) (hlow : Json.isLowSurrogate u = false)
    (afterHigh : Bool) (rest : Units) : loneSurrogateFrom afterHigh (u :: rest) = loneSurrogateFrom false rest := by
  simp [loneSurrogateFrom, hhigh, hlow]

theorem loneSurrogateFrom_pair {u v : Nat} (hu : Json.isHighSurrogate u = true) (hv : Json.isLowSurrogate v = true)
    (rest : Units) :
    loneSurrogateFrom false (u :: v :: rest) = loneSurrogateFrom false rest := by
  have hlow : Json.isLowSurrogate u = false := by
    simp only [Json.isHighSurrogate, Json.isLowSurrogate, Bool.and_eq_true, decide_eq_true_eq, Bool.and_eq_false_iff,
      decide_eq_false_iff_not] at hu ⊢
    omega
  have hhigh : Json.isHighSurrogate v = false := by
    simp only [Json.isHighSurrogate, Json.isLowSurrogate, Bool.and_eq_true, decide_eq_true_eq, Bool.and_eq_false_iff,
      decide_eq_false_iff_not] at hv ⊢
    omega
  simp [loneSurrogateFrom, hu, hv, hlow, hhigh]

theorem isUnicode_of_noLone : ∀ {s : Units}, (∀ u ∈ s, u < 0x10000) → loneSurrogate s = false → IsUnicode s
  | [], _, _ => ⟨"", rfl⟩
  | u :: rest, hunits, h => by
    by_cases hhigh : Json.isHighSurrogate u = true
    · -- A high surrogate is followed by its partner.
      cases rest with
      | nil => simp [loneSurrogate, loneSurrogateFrom, hhigh] at h
      | cons v rest =>
        have hlow : Json.isLowSurrogate v = true := by
          by_contra hlow
          simp [loneSurrogate, loneSurrogateFrom, hhigh, hlow] at h
        rw [loneSurrogate, loneSurrogateFrom_pair hhigh hlow] at h
        have hrest := isUnicode_of_noLone (fun w hw => hunits w (by simp [hw])) h
        simp only [Json.isHighSurrogate, Json.isLowSurrogate, Bool.and_eq_true, decide_eq_true_eq] at hhigh hlow
        exact isUnicode_append (isUnicode_pair hhigh hlow) hrest
    · have hhigh : Json.isHighSurrogate u = false := by simpa using hhigh
      have hlow : Json.isLowSurrogate u = false := by
        by_contra hlow
        simp [loneSurrogate, loneSurrogateFrom, hhigh, hlow] at h
      rw [loneSurrogate, loneSurrogateFrom_plain hhigh hlow] at h
      have hrest := isUnicode_of_noLone (fun w hw => hunits w (List.mem_cons_of_mem _ hw)) h
      have hu := hunits u List.mem_cons_self
      simp only [Json.isHighSurrogate, Json.isLowSurrogate, Bool.and_eq_false_iff, decide_eq_false_iff_not] at hhigh hlow
      exact isUnicode_append (isUnicode_unit (u := u) (by omega)) hrest

theorem noLone_codeUnits (s : String) : loneSurrogate (codeUnits s) = false := by
  unfold codeUnits loneSurrogate
  induction s.toList with
  | nil => rfl
  | cons c rest ih =>
    have hvalid : c.toNat < 0xD800 ∨ (0xDFFF < c.toNat ∧ c.toNat < 0x110000) := c.valid
    rw [List.flatMap_cons]
    by_cases hc : c.toNat < 0x10000
    · rw [if_pos hc, List.cons_append, List.nil_append, loneSurrogateFrom_plain _ _, ih]
      · simp only [Json.isHighSurrogate, Bool.and_eq_false_iff, decide_eq_false_iff_not]
        omega
      · simp only [Json.isLowSurrogate, Bool.and_eq_false_iff, decide_eq_false_iff_not]
        omega
    · rw [if_neg hc, List.cons_append, List.cons_append, List.nil_append, loneSurrogateFrom_pair _ _, ih]
      · simp only [Json.isHighSurrogate, Bool.and_eq_true, decide_eq_true_eq]
        omega
      · simp only [Json.isLowSurrogate, Bool.and_eq_true, decide_eq_true_eq]
        omega

theorem text_eq_ok {s : Units} (hunits : ∀ u ∈ s, u < 0x10000) : text s where_ = .ok t ↔ IsText s ∧ t = Json.quote s := by
  have hlone : loneSurrogate s = false ↔ IsUnicode s := by
    constructor
    · exact isUnicode_of_noLone hunits
    · rintro ⟨string, rfl⟩
      exact noLone_codeUnits string
  unfold text IsText
  by_cases h : (s.contains 0 || loneSurrogate s) = true
  · rw [if_pos h]
    constructor
    · intro hok
      cases hok
    · rintro ⟨⟨hnul, hunicode⟩, -⟩
      rw [Bool.or_eq_true, List.contains_iff_mem, hlone.mpr hunicode] at h
      exact absurd h (by simp [hnul])
  · rw [if_neg h]
    rw [Bool.not_eq_true, Bool.or_eq_false_iff, hlone, ← Bool.not_eq_true, List.contains_iff_mem] at h
    constructor
    · intro hok
      cases hok
      exact ⟨h, rfl⟩
    · rintro ⟨-, rfl⟩
      rfl

/-! ## Lists -/

/-- An array whose own properties are its indexes and `length`, all data. -/
structure ArrayObject.Plain (array : ArrayObject Ref) (values : List (Value Ref)) : Prop where
  prototype : array.prototype = .arrayPrototype
  symbols : array.symbols = 0
  others : array.others = []
  elements : array.elements = values.map fun value => some (.value value)

theorem parseElements_eq_some {parse : Value Ref → Checked α} {elements : List (Option (Descriptor Ref))} {items : List α} :
    parseElements parse elements = .ok (some items) ↔
      ∃ values, elements = values.map (fun value => some (.value value)) ∧
      List.Forall₂ (fun value item => parse value = .ok item) values items := by
  induction elements generalizing items with
  | nil =>
    constructor
    · intro h
      cases h
      exact ⟨[], rfl, .nil⟩
    · rintro ⟨values, hvalues, hitems⟩
      cases values with
      | nil =>
        cases hitems
        rfl
      | cons => cases hvalues
  | cons element rest ih =>
    cases element with
    | none =>
      constructor
      · intro h
        cases h
      · rintro ⟨values, hvalues, _⟩
        cases values <;> cases hvalues
    | some descriptor =>
      cases descriptor with
      | accessor =>
        constructor
        · intro h
          cases h
        · rintro ⟨values, hvalues, _⟩
          cases values <;> cases hvalues
      | value value =>
        constructor
        · intro h
          unfold parseElements at h
          cases hparse : parse value with
          | error e =>
            rw [hparse] at h
            cases h
          | ok item =>
            cases hrest : parseElements parse rest with
            | error e =>
              rw [hparse, hrest] at h
              cases h
            | ok found =>
              rw [hparse, hrest] at h
              cases found with
              | none => cases h
              | some more =>
                cases h
                obtain ⟨values, rfl, hmore⟩ := ih.mp hrest
                exact ⟨value :: values, rfl, .cons hparse hmore⟩
        · rintro ⟨values, hvalues, hitems⟩
          cases values with
          | nil => cases hvalues
          | cons other values =>
            cases hvalues
            cases hitems with
            | cons hparse hmore =>
              have hrest := ih.mpr ⟨values, rfl, hmore⟩
              unfold parseElements
              rw [hparse, hrest]
              rfl

theorem ownNames_eq (h : array.elements = values.map fun value => some (.value value)) :
    array.ownNames = array.elements.length + 1 + array.others.length := by
  have hall : array.elements.filter Option.isSome = array.elements := by
    rw [List.filter_eq_self, h]
    intro element helement
    obtain ⟨value, _, rfl⟩ := List.mem_map.mp helement
    rfl
  rw [ArrayObject.ownNames, hall]

theorem parseList_eq_some {parse : Value Ref → Checked α} {items : List α} :
    parseList array parse = .ok (some items) ↔
      ∃ values, array.Plain values ∧ List.Forall₂ (fun value item => parse value = .ok item) values items := by
  unfold parseList
  constructor
  · intro h
    split at h
    · cases h
    rename_i hplain
    split at h
    · cases h
    rename_i hnames
    rw [not_or, not_not, not_not] at hplain
    obtain ⟨values, hvalues, hitems⟩ := (parseElements_eq_some).mp h
    refine ⟨values, ⟨hplain.1, hplain.2, ?_, hvalues⟩, hitems⟩
    rw [not_not, ownNames_eq hvalues] at hnames
    apply List.length_eq_zero_iff.mp
    omega
  · rintro ⟨values, hplain, hitems⟩
    have hnames : array.ownNames = array.elements.length + 1 := by
      rw [ownNames_eq hplain.elements, hplain.others]
      rfl
    rw [if_neg (by simp [hplain.prototype, hplain.symbols]), if_neg (by simp [hnames])]
    exact (parseElements_eq_some).mpr ⟨values, hplain.elements, hitems⟩

/-! ## Members -/

/-- The members that are written: those whose value is not undefined. -/
def kept : List (Units × Descriptor Ref) → List (Units × Value Ref)
  | [] => []
  | (_, .accessor) :: rest => kept rest
  | (_, .value .undefined) :: rest => kept rest
  | (key, .value member) :: rest => (key, member) :: kept rest

theorem kept_sublist (properties : List (Units × Descriptor Ref)) :
    ((kept properties).map Prod.fst).Sublist (properties.map Prod.fst) := by
  fun_induction kept properties with
  | case1 => exact .slnil
  | case2 name rest ih => exact .cons _ ih
  | case3 name rest ih => exact .cons _ ih
  | case4 name member rest hmember ih => exact .cons_cons _ ih

/-- The texts of members, each after the one before it. -/
def joinMembers : Bool → List (Units × Units) → Units
  | _, [] => []
  | first, (key, value) :: rest => (if first then [] else [0x2c]) ++ (Json.quote key ++ 0x3a :: (value ++ joinMembers false rest))

theorem writtenMembers_eq_ok {write : Value Ref → Checked Units} {first : Bool} {properties : List (Units × Descriptor Ref)}
    (hkeys : ∀ p ∈ properties, ∀ u ∈ p.1, u < 0x10000) :
    writtenMembers write where_ first properties = .ok t ↔
      (∀ p ∈ properties, p.2 ≠ .accessor) ∧ ∃ texts : List (Units × Units),
        List.Forall₂ (fun member entry => IsText member.1 ∧ entry.1 = member.1 ∧
          write member.2 = .ok entry.2) (kept properties) texts ∧
          t = joinMembers first texts := by
  fun_induction kept properties generalizing first t with
  | case1 =>
    constructor
    · intro h
      cases h
      exact ⟨by simp, [], .nil, rfl⟩
    · rintro ⟨-, texts, hall, rfl⟩
      cases hall
      rfl
  | case2 name rest ih =>
    constructor
    · intro h
      cases h
    · rintro ⟨hdata, -⟩
      exact absurd rfl (hdata _ List.mem_cons_self)
  | case3 name rest ih =>
    rw [writtenMembers, ih fun p hp => hkeys p (List.mem_cons_of_mem _ hp)]
    simp
  | case4 name member rest hmember ih =>
    have hrest : ∀ p ∈ rest, ∀ u ∈ p.1, u < 0x10000 := fun p hp => hkeys p (List.mem_cons_of_mem _ hp)
    have hname : ∀ u ∈ name, u < 0x10000 := hkeys _ List.mem_cons_self
    rw [writtenMembers]
    · constructor
      · intro h
        cases htext : text name where_ with
        | error e =>
          rw [htext] at h
          cases h
        | ok quoted =>
          cases hvalue : write member with
          | error e =>
            rw [htext, hvalue] at h
            cases h
          | ok value =>
            cases hmore : writtenMembers write where_ false rest with
            | error e =>
              rw [htext, hvalue, hmore] at h
              cases h
            | ok more =>
              rw [htext, hvalue, hmore] at h
              cases h
              obtain ⟨histext, rfl⟩ := (text_eq_ok hname).mp htext
              obtain ⟨hdata, texts, hall, rfl⟩ := (ih hrest).mp hmore
              refine ⟨?_, (name, value) :: texts, .cons ⟨histext, rfl, hvalue⟩ hall, rfl⟩
              intro p hp
              rcases List.mem_cons.mp hp with rfl | hp
              · simp
              · exact hdata p hp
      · rintro ⟨hdata, texts, hall, rfl⟩
        cases hall with
        | cons hentry hall =>
          rename_i entry texts
          obtain ⟨key, value⟩ := entry
          obtain ⟨histext, hkey, hvalue⟩ := hentry
          have hmore : writtenMembers write where_ false rest = .ok (joinMembers false texts) :=
            (ih hrest).mpr ⟨fun p hp => hdata p (List.mem_cons_of_mem _ hp), texts, hall, rfl⟩
          dsimp only at hkey hvalue
          rw [(text_eq_ok hname).mpr ⟨histext, rfl⟩, hvalue, hmore, joinMembers, hkey]
          rfl
    · exact hmember

/-! ## What a value holds -/

section
variable (heap : Heap Ref)

def IsArray (value : Value Ref) (array : ArrayObject Ref) : Prop := ∃ ref, value = .object ref ∧ heap ref = .array array

def IsObject (value : Value Ref) (object : PlainObject Ref) : Prop := ∃ ref, value = .object ref ∧ heap ref = .other object

/-- An item of an array, or a member of an object that is not undefined. -/
def Member (value part : Value Ref) : Prop :=
  (∃ array, IsArray heap value array ∧ some (.value part) ∈ array.elements) ∨
    ∃ object, IsObject heap value object ∧ ∃ key, (key, part) ∈ kept object.properties

/-- `part` is `depth` members below `value`. -/
inductive Holds : Value Ref → Nat → Value Ref → Prop
  | self (value : Value Ref) : Holds value 0 value
  | member {value part deep : Value Ref} {depth : Nat} : Member heap value part → Holds part depth deep →
    Holds value (depth + 1) deep

/-- An array or object with this many others above it in the value. -/
def NestsBelow (depth : Nat) (value : Value Ref) : Prop := ∃ ref, Holds heap value depth (.object ref)

/-- More than 64 arrays and objects, each in the one before. -/
def TooDeep (value : Value Ref) : Prop := NestsBelow heap maxJsonDepth value

/-- The value, or a part of it, is a part of itself. -/
def ContainsItself (value : Value Ref) : Prop := ∃ m n part, Holds heap value m part ∧ Holds heap part (n + 1) part

inductive Fault
  | undefined
  | notJson
  | notFinite
  | text
  | key
  | prototype
  | symbolKey
  | accessor
  | hole
  | namedProperty

/-- What is wrong with a value itself, whatever its members are. -/
def Shows : Fault → Value Ref → Prop
  | .undefined, value => value = .undefined
  | .notJson, value => value = .symbol ∨ value = .bigint ∨ value = .function
  | .notFinite, value => value = .num .nan ∨ ∃ negative, value = .num (.infinite negative)
  | .text, value => ∃ s, value = .str s ∧ ¬IsText s.1
  | .key, value => ∃ object, IsObject heap value object ∧ ∃ member ∈ kept object.properties, ¬IsText member.1
  | .prototype, value =>
    (∃ array, IsArray heap value array ∧ array.prototype ≠ .arrayPrototype) ∨
      ∃ object, IsObject heap value object ∧ object.prototype ≠ .objectPrototype ∧ object.prototype ≠ .null
  | .symbolKey, value =>
    (∃ array, IsArray heap value array ∧ array.symbols ≠ 0) ∨ ∃ object, IsObject heap value object ∧ object.symbols ≠ 0
  | .accessor, value =>
    (∃ array, IsArray heap value array ∧ some .accessor ∈ array.elements) ∨
      ∃ object, IsObject heap value object ∧ ∃ key, (key, .accessor) ∈ object.properties
  | .hole, value => ∃ array, IsArray heap value array ∧ none ∈ array.elements
  | .namedProperty, value => ∃ array, IsArray heap value array ∧ array.others ≠ []

/-- The value is refused for what it is or for a part of it. -/
def HoldsFault (value : Value Ref) : Prop := ∃ depth part fault, Holds heap value depth part ∧ Shows heap fault part

end

variable {heap : Heap Ref}

theorem holds_trans {value part deep : Value Ref} {m : Nat} (hpart : Holds heap value m part) (hdeep : Holds heap part n deep) :
    Holds heap value (m + n) deep := by
  induction hpart with
  | self => rwa [Nat.zero_add]
  | member hmember _ ih =>
    rw [Nat.add_right_comm]
    exact .member hmember (ih hdeep)

theorem isObjectRef_of_member (h : Member heap value part) : ∃ ref, value = .object ref := by
  rcases h with ⟨array, ⟨ref, hvalue, _⟩, _⟩ | ⟨object, ⟨ref, hvalue, _⟩, _⟩
  · exact ⟨ref, hvalue⟩
  · exact ⟨ref, hvalue⟩

/-- Every part above a member is an array or an object. -/
theorem nestsBelow_of_holds (h : Holds heap value n part) : ∀ m < n, NestsBelow heap m value := by
  induction h with
  | self =>
    intro m hm
    omega
  | @member value part deep depth hmember _ ih =>
    intro m hm
    cases m with
    | zero =>
      obtain ⟨ref, rfl⟩ := isObjectRef_of_member hmember
      exact ⟨ref, .self _⟩
    | succ m =>
      obtain ⟨ref, href⟩ := ih m (by omega)
      exact ⟨ref, .member hmember href⟩

theorem holds_cycle (h : Holds heap part (n + 1) part) (rounds : Nat) : ∃ m, rounds ≤ m ∧ Holds heap part m part := by
  induction rounds with
  | zero => exact ⟨0, le_rfl, .self _⟩
  | succ rounds ih =>
    obtain ⟨m, hm, hround⟩ := ih
    exact ⟨n + 1 + m, by omega, holds_trans h hround⟩

/-- A value that contains itself nests as deep as one likes. -/
theorem tooDeep_of_containsItself (h : ContainsItself heap value) : TooDeep heap value := by
  obtain ⟨m, n, part, hpart, hcycle⟩ := h
  obtain ⟨k, hk, hround⟩ := holds_cycle hcycle (maxJsonDepth + 1)
  exact nestsBelow_of_holds (holds_trans hpart hround) maxJsonDepth (by omega)

/-! ## What is refused -/

theorem isArray_iff {found : ArrayObject Ref} (h : heap ref = .array array) :
    IsArray heap (.object ref) found ↔ found = array := by
  constructor
  · rintro ⟨other, heq, hfound⟩
    cases heq
    rw [h] at hfound
    cases hfound
    rfl
  · rintro rfl
    exact ⟨ref, rfl, h⟩

theorem isObject_iff {found : PlainObject Ref} (h : heap ref = .other object) :
    IsObject heap (.object ref) found ↔ found = object := by
  constructor
  · rintro ⟨other, heq, hfound⟩
    cases heq
    rw [h] at hfound
    cases hfound
    rfl
  · rintro rfl
    exact ⟨ref, rfl, h⟩

theorem not_isObject_of_array (h : heap ref = .array array) (found : PlainObject Ref) : ¬IsObject heap (.object ref) found := by
  rintro ⟨other, heq, hfound⟩
  cases heq
  rw [h] at hfound
  cases hfound

theorem not_isArray_of_other (h : heap ref = .other object) (found : ArrayObject Ref) : ¬IsArray heap (.object ref) found := by
  rintro ⟨other, heq, hfound⟩
  cases heq
  rw [h] at hfound
  cases hfound

theorem faultless_array (h : heap ref = .array array) :
    (∀ fault, ¬Shows heap fault (.object ref)) ↔ ∃ values, array.Plain values := by
  constructor
  · intro hnone
    have hprototype : array.prototype = .arrayPrototype := by
      by_contra hne
      exact hnone .prototype (.inl ⟨array, ⟨ref, rfl, h⟩, hne⟩)
    have hsymbols : array.symbols = 0 := by
      by_contra hne
      exact hnone .symbolKey (.inl ⟨array, ⟨ref, rfl, h⟩, hne⟩)
    have hothers : array.others = [] := by
      by_contra hne
      exact hnone .namedProperty ⟨array, ⟨ref, rfl, h⟩, hne⟩
    have hdata : ∀ element ∈ array.elements, ∃ value, element = some (.value value) := by
      intro element helement
      cases element with
      | none => exact absurd ⟨array, ⟨ref, rfl, h⟩, helement⟩ (hnone .hole)
      | some descriptor =>
        cases descriptor with
        | value value => exact ⟨value, rfl⟩
        | accessor => exact absurd (.inl ⟨array, ⟨ref, rfl, h⟩, helement⟩) (hnone .accessor)
    have hvalues : ∀ elements : List (Option (Descriptor Ref)), (∀ element ∈ elements, ∃ value, element = some (.value value)) →
        ∃ values : List (Value Ref), elements = values.map fun value => some (.value value) := by
      intro elements
      induction elements with
      | nil => exact fun _ => ⟨[], rfl⟩
      | cons element rest ih =>
        intro hall
        obtain ⟨value, rfl⟩ := hall element List.mem_cons_self
        obtain ⟨values, rfl⟩ := ih fun other hother => hall other (List.mem_cons_of_mem _ hother)
        exact ⟨value :: values, rfl⟩
    obtain ⟨values, helements⟩ := hvalues _ hdata
    exact ⟨values, hprototype, hsymbols, hothers, helements⟩
  · rintro ⟨values, hplain⟩ fault hshows
    have hno := not_isObject_of_array h
    cases fault with
    | undefined => cases hshows
    | notJson => rcases hshows with heq | heq | heq <;> cases heq
    | notFinite =>
      rcases hshows with heq | ⟨_, heq⟩
      · cases heq
      · cases heq
    | text =>
      obtain ⟨_, heq, _⟩ := hshows
      cases heq
    | key =>
      obtain ⟨object, hobject, _⟩ := hshows
      exact hno object hobject
    | prototype =>
      rcases hshows with ⟨found, hfound, hne⟩ | ⟨object, hobject, _⟩
      · rw [isArray_iff h] at hfound
        exact hne (hfound ▸ hplain.prototype)
      · exact hno object hobject
    | symbolKey =>
      rcases hshows with ⟨found, hfound, hne⟩ | ⟨object, hobject, _⟩
      · rw [isArray_iff h] at hfound
        exact hne (hfound ▸ hplain.symbols)
      · exact hno object hobject
    | accessor =>
      rcases hshows with ⟨found, hfound, hmem⟩ | ⟨object, hobject, _⟩
      · rw [isArray_iff h] at hfound
        rw [hfound, hplain.elements] at hmem
        obtain ⟨value, _, heq⟩ := List.mem_map.mp hmem
        cases heq
      · exact hno object hobject
    | hole =>
      obtain ⟨found, hfound, hmem⟩ := hshows
      rw [isArray_iff h] at hfound
      rw [hfound, hplain.elements] at hmem
      obtain ⟨value, _, heq⟩ := List.mem_map.mp hmem
      cases heq
    | namedProperty =>
      obtain ⟨found, hfound, hne⟩ := hshows
      rw [isArray_iff h] at hfound
      exact hne (hfound ▸ hplain.others)

/-- An object as the layer writes one. -/
structure PlainObject.Plain (object : PlainObject Ref) : Prop where
  prototype : object.prototype = .objectPrototype ∨ object.prototype = .null
  symbols : object.symbols = 0
  data : ∀ p ∈ object.properties, p.2 ≠ .accessor
  keys : ∀ member ∈ kept object.properties, IsText member.1

theorem faultless_object (h : heap ref = .other object) : (∀ fault, ¬Shows heap fault (.object ref)) ↔ object.Plain := by
  constructor
  · intro hnone
    refine ⟨?_, ?_, ?_, ?_⟩
    · by_contra hne
      rw [not_or] at hne
      exact hnone .prototype (.inr ⟨object, ⟨ref, rfl, h⟩, hne⟩)
    · by_contra hne
      exact hnone .symbolKey (.inr ⟨object, ⟨ref, rfl, h⟩, hne⟩)
    · rintro ⟨key, descriptor⟩ hmem rfl
      exact hnone .accessor (.inr ⟨object, ⟨ref, rfl, h⟩, key, hmem⟩)
    · intro member hmember
      by_contra hne
      exact hnone .key ⟨object, ⟨ref, rfl, h⟩, member, hmember, hne⟩
  · rintro hplain fault hshows
    have hno := not_isArray_of_other h
    cases fault with
    | undefined => cases hshows
    | notJson => rcases hshows with heq | heq | heq <;> cases heq
    | notFinite =>
      rcases hshows with heq | ⟨_, heq⟩
      · cases heq
      · cases heq
    | text =>
      obtain ⟨_, heq, _⟩ := hshows
      cases heq
    | key =>
      obtain ⟨found, hfound, member, hmember, hne⟩ := hshows
      rw [isObject_iff h] at hfound
      exact hne (hplain.keys member (hfound ▸ hmember))
    | prototype =>
      rcases hshows with ⟨array, harray, _⟩ | ⟨found, hfound, hobject, hnull⟩
      · exact hno array harray
      · rw [isObject_iff h] at hfound
        subst hfound
        rcases hplain.prototype with hp | hp
        · exact hobject hp
        · exact hnull hp
    | symbolKey =>
      rcases hshows with ⟨array, harray, _⟩ | ⟨found, hfound, hne⟩
      · exact hno array harray
      · rw [isObject_iff h] at hfound
        exact hne (hfound ▸ hplain.symbols)
    | accessor =>
      rcases hshows with ⟨array, harray, _⟩ | ⟨found, hfound, key, hmem⟩
      · exact hno array harray
      · rw [isObject_iff h] at hfound
        exact hplain.data _ (hfound ▸ hmem) rfl
    | hole =>
      obtain ⟨array, harray, _⟩ := hshows
      exact hno array harray
    | namedProperty =>
      obtain ⟨array, harray, _⟩ := hshows
      exact hno array harray

theorem exists_forall₂_iff {β γ : Type} {R : β → γ → Prop} {xs : List β} :
    (∃ ys, List.Forall₂ R xs ys) ↔ ∀ x ∈ xs, ∃ y, R x y := by
  induction xs with
  | nil => exact ⟨fun _ x hx => absurd hx List.not_mem_nil, fun _ => ⟨[], .nil⟩⟩
  | cons x xs ih =>
    constructor
    · rintro ⟨ys, hall⟩
      cases hall with
      | cons hx hxs =>
        intro z hz
        rcases List.mem_cons.mp hz with rfl | hz
        · exact ⟨_, hx⟩
        · exact ih.mp ⟨_, hxs⟩ z hz
    · intro hall
      obtain ⟨y, hy⟩ := hall x List.mem_cons_self
      obtain ⟨ys, hys⟩ := ih.mpr fun z hz => hall z (List.mem_cons_of_mem _ hz)
      exact ⟨y :: ys, .cons hy hys⟩

theorem itemOf_written {item : Value Ref} :
    itemOf (written heap where_ left) where_ item = .ok t ↔ written heap where_ left item = .ok t := by
  cases item with
  | undefined =>
    constructor
    · intro h
      cases h
    · intro h
      unfold written at h
      cases h
  | _ => exact Iff.rfl

theorem writtenArray_eq_ok :
    writtenArray (written heap where_ left) where_ array = .ok t ↔
      ∃ values items, array.Plain values ∧ List.Forall₂ (fun value item => written heap where_ left value = .ok item)
      values items ∧
        t = 0x5b :: ([0x2c].intercalate items ++ [0x5d]) := by
  unfold writtenArray
  constructor
  · intro h
    cases hlist : parseList array (itemOf (written heap where_ left) where_) with
    | error e =>
      rw [hlist] at h
      cases h
    | ok found =>
      rw [hlist] at h
      cases found with
      | none => cases h
      | some items =>
        cases h
        obtain ⟨values, hplain, hitems⟩ := (parseList_eq_some).mp hlist
        exact ⟨values, items, hplain, hitems.imp fun _ _ => (itemOf_written).mp, rfl⟩
  · rintro ⟨values, items, hplain, hitems, rfl⟩
    have hlist : parseList array (itemOf (written heap where_ left) where_) = .ok (some items) :=
      (parseList_eq_some).mpr ⟨values, hplain, hitems.imp fun _ _ => (itemOf_written).mpr⟩
    rw [hlist]
    rfl

theorem writtenObject_eq_ok {write : Value Ref → Checked Units} :
    writtenObject write where_ object = .ok t ↔
      object.Plain ∧ ∃ texts : List (Units × Units),
        List.Forall₂ (fun member entry => entry.1 = member.1 ∧ write member.2 = .ok entry.2) (kept object.properties) texts ∧
          t = 0x7b :: (joinMembers true texts ++ [0x7d]) := by
  have hand : ∀ {texts : List (Units × Units)}, List.Forall₂ (fun (member : Units × Value Ref) (entry : Units × Units) =>
        IsText member.1 ∧ entry.1 = member.1 ∧ write member.2 = .ok entry.2) (kept object.properties) texts ↔
      (∀ member ∈ kept object.properties, IsText member.1) ∧
        List.Forall₂ (fun member entry => entry.1 = member.1 ∧ write member.2 = .ok entry.2) (kept object.properties) texts :=
    List.forall₂_and_left _ _
  unfold writtenObject
  constructor
  · intro h
    split at h
    · cases h
    rename_i hprototype
    split at h
    · cases h
    rename_i hsymbols
    cases hmembers : writtenMembers write where_ true object.properties with
    | error e =>
      rw [hmembers] at h
      cases h
    | ok members =>
      rw [hmembers] at h
      cases h
      obtain ⟨hdata, texts, hall, rfl⟩ := (writtenMembers_eq_ok object.keys).mp hmembers
      obtain ⟨hkeys, htexts⟩ := hand.mp hall
      refine ⟨⟨?_, by omega, hdata, hkeys⟩, texts, htexts, rfl⟩
      by_contra hne
      rw [not_or] at hne
      exact hprototype hne
  · rintro ⟨hplain, texts, htexts, rfl⟩
    have hmembers : writtenMembers write where_ true object.properties = .ok (joinMembers true texts) :=
      (writtenMembers_eq_ok object.keys).mpr ⟨hplain.data, texts, hand.mpr ⟨hplain.keys, htexts⟩, rfl⟩
    have hprototype : ¬(object.prototype ≠ .objectPrototype ∧ object.prototype ≠ .null) := by
      rintro ⟨hobject, hnull⟩
      rcases hplain.prototype with h | h
      · exact hobject h
      · exact hnull h
    rw [if_neg hprototype, if_neg (by rw [hplain.symbols]; omega), hmembers]
    rfl

/-! ## Which values are taken -/

theorem holdsFault_iff :
    HoldsFault heap value ↔ (∃ fault, Shows heap fault value) ∨ ∃ part, Member heap value part ∧ HoldsFault heap part := by
  constructor
  · rintro ⟨depth, part, fault, hholds, hshows⟩
    cases hholds with
    | self => exact .inl ⟨fault, hshows⟩
    | member hmember hholds => exact .inr ⟨_, hmember, _, _, fault, hholds, hshows⟩
  · rintro (⟨fault, hshows⟩ | ⟨part, hmember, depth, deep, fault, hholds, hshows⟩)
    · exact ⟨0, value, fault, .self _, hshows⟩
    · exact ⟨depth + 1, deep, fault, .member hmember hholds, hshows⟩

theorem nestsBelow_succ {depth : Nat} :
    NestsBelow heap (depth + 1) value ↔ ∃ part, Member heap value part ∧ NestsBelow heap depth part := by
  constructor
  · rintro ⟨ref, hholds⟩
    cases hholds with
    | member hmember hholds => exact ⟨_, hmember, ref, hholds⟩
  · rintro ⟨part, hmember, ref, hholds⟩
    exact ⟨ref, .member hmember hholds⟩

theorem member_array (h : heap ref = .array array) (hplain : array.Plain values) :
    Member heap (.object ref) part ↔ part ∈ values := by
  have hmem : some (.value part) ∈ array.elements ↔ part ∈ values := by
    rw [hplain.elements, List.mem_map]
    constructor
    · rintro ⟨value, hvalue, heq⟩
      cases heq
      exact hvalue
    · intro hvalue
      exact ⟨part, hvalue, rfl⟩
  constructor
  · rintro (⟨found, hfound, hpart⟩ | ⟨object, hobject, _⟩)
    · rw [isArray_iff h] at hfound
      exact hmem.mp (hfound ▸ hpart)
    · exact absurd hobject (not_isObject_of_array h object)
  · intro hpart
    exact .inl ⟨array, ⟨ref, rfl, h⟩, hmem.mpr hpart⟩

theorem member_object (h : heap ref = .other object) :
    Member heap (.object ref) part ↔ ∃ key, (key, part) ∈ kept object.properties := by
  constructor
  · rintro (⟨array, harray, _⟩ | ⟨found, hfound, hpart⟩)
    · exact absurd harray (not_isArray_of_other h array)
    · rw [isObject_iff h] at hfound
      exact hfound ▸ hpart
  · intro hpart
    exact .inr ⟨object, ⟨ref, rfl, h⟩, hpart⟩

theorem written_object_taken :
    (∃ t, written heap where_ (left + 1) (.object ref) = .ok t) ↔
      (∀ fault, ¬Shows heap fault (.object ref)) ∧
        ∀ part, Member heap (.object ref) part → ∃ t, written heap where_ left part = .ok t := by
  cases h : heap ref with
  | array array =>
    have hunfold : written heap where_ (left + 1) (.object ref) = writtenArray (written heap where_ left) where_ array := by
      rw [written, h]
    rw [hunfold, faultless_array h]
    constructor
    · rintro ⟨t, ht⟩
      obtain ⟨values, items, hplain, hitems, _⟩ := (writtenArray_eq_ok).mp ht
      refine ⟨⟨values, hplain⟩, fun part hpart => ?_⟩
      exact (exists_forall₂_iff).mp ⟨items, hitems⟩ part ((member_array h hplain).mp hpart)
    · rintro ⟨⟨values, hplain⟩, hparts⟩
      obtain ⟨items, hitems⟩ := (exists_forall₂_iff).mpr fun value hvalue => hparts value ((member_array h hplain).mpr hvalue)
      exact ⟨_, (writtenArray_eq_ok).mpr ⟨values, items, hplain, hitems, rfl⟩⟩
  | other object =>
    have hunfold : written heap where_ (left + 1) (.object ref) = writtenObject (written heap where_ left) where_ object := by
      rw [written, h]
    rw [hunfold, faultless_object h]
    constructor
    · rintro ⟨t, ht⟩
      obtain ⟨hplain, texts, htexts, _⟩ := (writtenObject_eq_ok).mp ht
      refine ⟨hplain, fun part hpart => ?_⟩
      obtain ⟨key, hkey⟩ := (member_object h).mp hpart
      obtain ⟨entry, _, hentry⟩ := (exists_forall₂_iff).mp ⟨texts, htexts⟩ _ hkey
      exact ⟨entry.2, hentry⟩
    · rintro ⟨hplain, hparts⟩
      have hall : ∀ member ∈ kept object.properties, ∃ entry : Units × Units,
          entry.1 = member.1 ∧ written heap where_ left member.2 = .ok entry.2 := by
        rintro ⟨key, part⟩ hmember
        obtain ⟨t, ht⟩ := hparts part ((member_object h).mpr ⟨key, hmember⟩)
        exact ⟨(key, t), rfl, ht⟩
      obtain ⟨texts, htexts⟩ := (exists_forall₂_iff).mpr hall
      exact ⟨_, (writtenObject_eq_ok).mpr ⟨hplain, texts, htexts, rfl⟩⟩

theorem not_member_of_scalar (h : ∀ ref, value ≠ .object ref) : ¬Member heap value part := by
  intro hmember
  obtain ⟨ref, heq⟩ := isObjectRef_of_member hmember
  exact h ref heq

theorem shows_scalar (h : ∀ ref, value ≠ .object ref) {fault : Fault} (hshows : Shows heap fault value) :
    value = .undefined ∨ (value = .symbol ∨ value = .bigint ∨ value = .function) ∨
      (value = .num .nan ∨ ∃ negative, value = .num (.infinite negative)) ∨ ∃ s, value = .str s ∧ ¬IsText s.1 := by
  have harray : ∀ array, ¬IsArray heap value array := by
    rintro array ⟨ref, heq, _⟩
    exact h ref heq
  have hobject : ∀ object, ¬IsObject heap value object := by
    rintro object ⟨ref, heq, _⟩
    exact h ref heq
  cases fault with
  | undefined => exact .inl hshows
  | notJson => exact .inr (.inl hshows)
  | notFinite => exact .inr (.inr (.inl hshows))
  | text => exact .inr (.inr (.inr hshows))
  | key =>
    obtain ⟨object, hfound, _⟩ := hshows
    exact absurd hfound (hobject object)
  | prototype =>
    rcases hshows with ⟨array, hfound, _⟩ | ⟨object, hfound, _⟩
    · exact absurd hfound (harray array)
    · exact absurd hfound (hobject object)
  | symbolKey =>
    rcases hshows with ⟨array, hfound, _⟩ | ⟨object, hfound, _⟩
    · exact absurd hfound (harray array)
    · exact absurd hfound (hobject object)
  | accessor =>
    rcases hshows with ⟨array, hfound, _⟩ | ⟨object, hfound, _⟩
    · exact absurd hfound (harray array)
    · exact absurd hfound (hobject object)
  | hole =>
    obtain ⟨array, hfound, _⟩ := hshows
    exact absurd hfound (harray array)
  | namedProperty =>
    obtain ⟨array, hfound, _⟩ := hshows
    exact absurd hfound (harray array)

/-- A value that is no object is taken unless there is something wrong with it. -/
theorem written_scalar_taken (h : ∀ ref, value ≠ .object ref) :
    (∃ t, written heap where_ left value = .ok t) ↔ ∀ fault, ¬Shows heap fault value := by
  have hrefused : ∀ {fault e}, Shows heap fault value → written heap where_ left value = .error e →
      ((∃ t, written heap where_ left value = .ok t) ↔ ∀ fault, ¬Shows heap fault value) := by
    intro fault e hshows herror
    constructor
    · rintro ⟨t, ht⟩
      rw [herror] at ht
      cases ht
    · intro hnone
      exact absurd hshows (hnone fault)
  have htaken : ∀ {t}, written heap where_ left value = .ok t → (∀ fault, ¬Shows heap fault value) →
      ((∃ t, written heap where_ left value = .ok t) ↔ ∀ fault, ¬Shows heap fault value) :=
    fun ht hnone => ⟨fun _ => hnone, fun _ => ⟨_, ht⟩⟩
  cases value with
  | undefined => exact hrefused (show Shows heap .undefined _ from rfl) (by rw [written]; rfl)
  | symbol => exact hrefused (show Shows heap .notJson _ from .inl rfl) (by rw [written]; rfl)
  | bigint => exact hrefused (show Shows heap .notJson _ from .inr (.inl rfl)) (by rw [written]; rfl)
  | function => exact hrefused (show Shows heap .notJson _ from .inr (.inr rfl)) (by rw [written]; rfl)
  | object ref => exact absurd rfl (h ref)
  | null =>
    refine htaken (t := codeUnits "null") (by rw [written]; rfl) fun fault hshows => ?_
    simpa using shows_scalar h hshows
  | bool b =>
    refine htaken (t := codeUnits (if b then "true" else "false")) (by rw [written]; rfl) fun fault hshows => ?_
    simpa using shows_scalar h hshows
  | num n =>
    cases n with
    | nan => exact hrefused (show Shows heap .notFinite _ from .inl rfl) (by rw [written]; rfl)
    | infinite negative => exact hrefused (show Shows heap .notFinite _ from .inr ⟨negative, rfl⟩) (by rw [written]; rfl)
    | negZero =>
      refine htaken (t := [0x30]) (by rw [written]; rfl) fun fault hshows => ?_
      simpa using shows_scalar h hshows
    | finite x =>
      refine htaken (t := x.text) (by rw [written]; rfl) fun fault hshows => ?_
      simpa using shows_scalar h hshows
  | str s =>
    have hwritten : written heap where_ left (.str s) = text s.1 where_ := by
      rw [written]
    rw [hwritten]
    constructor
    · rintro ⟨t, ht⟩ fault hshows
      have hfault := shows_scalar h hshows
      simp only [reduceCtorEq, false_or, exists_const, Value.str.injEq, or_self] at hfault
      obtain ⟨_, rfl, hne⟩ := hfault
      exact hne ((text_eq_ok s.2).mp ht).1
    · intro hnone
      refine ⟨Json.quote s.1, (text_eq_ok s.2).mpr ⟨?_, rfl⟩⟩
      by_contra hne
      exact hnone .text ⟨s, rfl, hne⟩

theorem written_taken :
    (∃ t, written heap where_ left value = .ok t) ↔ ¬NestsBelow heap left value ∧ ¬HoldsFault heap value := by
  induction left generalizing value with
  | zero =>
    by_cases hobject : ∃ ref, value = .object ref
    · obtain ⟨ref, rfl⟩ := hobject
      constructor
      · rintro ⟨t, ht⟩
        unfold written at ht
        cases ht
      · rintro ⟨hdeep, _⟩
        exact absurd ⟨ref, .self _⟩ hdeep
    · have hscalar : ∀ ref, value ≠ .object ref := fun ref heq => hobject ⟨ref, heq⟩
      rw [written_scalar_taken hscalar, holdsFault_iff]
      constructor
      · intro hnone
        refine ⟨?_, ?_⟩
        · rintro ⟨ref, hholds⟩
          cases hholds
          exact hscalar ref rfl
        · rintro (⟨fault, hshows⟩ | ⟨part, hmember, _⟩)
          · exact hnone fault hshows
          · exact not_member_of_scalar hscalar hmember
      · rintro ⟨_, hnone⟩ fault hshows
        exact hnone (.inl ⟨fault, hshows⟩)
  | succ left ih =>
    rw [holdsFault_iff, nestsBelow_succ]
    by_cases hobject : ∃ ref, value = .object ref
    · obtain ⟨ref, rfl⟩ := hobject
      rw [written_object_taken]
      constructor
      · rintro ⟨hnone, hparts⟩
        refine ⟨?_, ?_⟩
        · rintro ⟨part, hmember, hdeep⟩
          exact (ih.mp (hparts part hmember)).1 hdeep
        · rintro (⟨fault, hshows⟩ | ⟨part, hmember, hfault⟩)
          · exact hnone fault hshows
          · exact (ih.mp (hparts part hmember)).2 hfault
      · rintro ⟨hdeep, hfault⟩
        refine ⟨fun fault hshows => hfault (.inl ⟨fault, hshows⟩), fun part hmember => ih.mpr ⟨?_, ?_⟩⟩
        · exact fun hnests => hdeep ⟨part, hmember, hnests⟩
        · exact fun hholds => hfault (.inr ⟨part, hmember, hholds⟩)
    · have hscalar : ∀ ref, value ≠ .object ref := fun ref heq => hobject ⟨ref, heq⟩
      rw [written_scalar_taken hscalar]
      constructor
      · intro hnone
        refine ⟨?_, ?_⟩
        · rintro ⟨part, hmember, _⟩
          exact not_member_of_scalar hscalar hmember
        · rintro (⟨fault, hshows⟩ | ⟨part, hmember, _⟩)
          · exact hnone fault hshows
          · exact not_member_of_scalar hscalar hmember
      · rintro ⟨_, hnone⟩ fault hshows
        exact hnone (.inl ⟨fault, hshows⟩)

/-! ## What the text says -/

/-- The JSON value a value is read as, taken member by member: a member that is undefined is
    left out, and `-0` is read as `0`. -/
inductive ReadAs (heap : Heap Ref) : Value Ref → Json Double → Prop
  | null : ReadAs heap .null .null
  | bool (b : Bool) : ReadAs heap (.bool b) (.bool b)
  | num (x : Double) : ReadAs heap (.num (.finite x)) (.num x)
  | negZero : ReadAs heap (.num .negZero) (.num Double.zero)
  | str (s : JsString) : ReadAs heap (.str s) (.str s.1)
  | array {ref : Ref} {array : ArrayObject Ref} {values : List (Value Ref)} {items : List (Json Double)} :
      heap ref = .array array → array.Plain values → List.Forall₂ (ReadAs heap) values items →
      ReadAs heap (.object ref) (.arr items)
  | object {ref : Ref} {object : PlainObject Ref} {fields : List (Units × Json Double)} :
      heap ref = .other object → object.Plain → fields.map Prod.fst = (kept object.properties).map Prod.fst →
        List.Forall₂ (ReadAs heap) ((kept object.properties).map Prod.snd) (fields.map Prod.snd) →
        ReadAs heap (.object ref) (.obj fields)

/-- The text of a value and the JSON value it is the text of. -/
def Says (heap : Heap Ref) (value : Value Ref) (t : Units) : Prop :=
  ∃ tree : Json Double, ReadAs heap value tree ∧ tree.Proper ∧ t = tree.print

theorem printItems_eq (items : List (Json Double)) : Json.printItems items = items.flatMap (fun item => 0x2c :: item.print) ++
    [0x5d] := by
  induction items with
  | nil => rfl
  | cons item items ih => simp [Json.printItems, ih]

theorem intercalate_comma (first : Units) (rest : List Units) :
    [0x2c].intercalate (first :: rest) = first ++ rest.flatMap fun item => 0x2c :: item := by
  induction rest generalizing first with
  | nil => simp [List.intercalate]
  | cons item rest ih =>
    have hstep : [0x2c].intercalate (first :: item :: rest) = first ++ 0x2c :: [0x2c].intercalate (item :: rest) := by
      simp [List.intercalate]
    rw [hstep, ih, List.flatMap_cons]
    rfl

theorem print_arr (items : List (Json Double)) :
    Json.print (.arr items) = 0x5b :: ([0x2c].intercalate (items.map Json.print) ++ [0x5d]) := by
  cases items with
  | nil => rfl
  | cons item items =>
    rw [Json.print, printItems_eq, List.map_cons, intercalate_comma, List.flatMap_map, List.append_assoc]

theorem joinMembers_false (fields : List (Units × Json Double)) :
    joinMembers false (fields.map fun field => (field.1, field.2.print)) ++ [0x7d] = Json.printFields fields := by
  induction fields with
  | nil => rfl
  | cons field fields ih =>
    obtain ⟨key, value⟩ := field
    rw [Json.printFields, ← ih]
    simp [joinMembers]

theorem print_obj (fields : List (Units × Json Double)) :
    Json.print (.obj fields) = 0x7b :: (joinMembers true (fields.map fun field => (field.1, field.2.print)) ++ [0x7d]) := by
  cases fields with
  | nil => rfl
  | cons field fields =>
    obtain ⟨key, value⟩ := field
    rw [Json.print, ← joinMembers_false]
    simp [joinMembers]

theorem says_items {items : List Units} (h : List.Forall₂ (Says heap) values items) :
    ∃ trees : List (Json Double), List.Forall₂ (ReadAs heap) values trees ∧ (∀ tree ∈ trees, tree.Proper) ∧
    items = trees.map Json.print := by
  induction h with
  | nil => exact ⟨[], .nil, by simp, rfl⟩
  | cons hvalue _ ih =>
    obtain ⟨tree, hread, hproper, rfl⟩ := hvalue
    obtain ⟨trees, hreads, hall, rfl⟩ := ih
    refine ⟨tree :: trees, .cons hread hreads, ?_, rfl⟩
    intro other hother
    rcases List.mem_cons.mp hother with rfl | hother
    · exact hproper
    · exact hall other hother

theorem says_members {members : List (Units × Value Ref)} {texts : List (Units × Units)}
    (h : List.Forall₂ (fun member entry => entry.1 = member.1 ∧ Says heap member.2 entry.2) members texts) :
    ∃ fields : List (Units × Json Double), fields.map Prod.fst = members.map Prod.fst ∧
      List.Forall₂ (ReadAs heap) (members.map Prod.snd) (fields.map Prod.snd) ∧ (∀ field ∈ fields, field.2.Proper) ∧
        texts = fields.map fun field => (field.1, field.2.print) := by
  induction h with
  | nil => exact ⟨[], rfl, .nil, by simp, rfl⟩
  | @cons member entry members texts hmember _ ih =>
    obtain ⟨key, t⟩ := entry
    obtain ⟨rfl, tree, hread, hproper, rfl⟩ := hmember
    obtain ⟨fields, hkeys, hreads, hall, rfl⟩ := ih
    refine ⟨(member.1, tree) :: fields, ?_, .cons hread hreads, ?_, rfl⟩
    · rw [List.map_cons, hkeys, List.map_cons]
    · intro other hother
      rcases List.mem_cons.mp hother with rfl | hother
      · exact hproper
      · exact hall other hother

theorem says_array (href : heap ref = .array array) {items : List Units} (hplain : array.Plain values)
    (h : List.Forall₂ (Says heap) values items) : Says heap (.object ref) (0x5b :: ([0x2c].intercalate items ++ [0x5d])) := by
  obtain ⟨trees, hreads, hall, rfl⟩ := says_items h
  exact ⟨.arr trees, .array href hplain hreads, .arr hall, (print_arr trees).symm⟩

theorem says_object (href : heap ref = .other object) {texts : List (Units × Units)} (hplain : object.Plain)
    (h : List.Forall₂ (fun member entry => entry.1 = member.1 ∧ Says heap member.2 entry.2) (kept object.properties) texts) :
    Says heap (.object ref) (0x7b :: (joinMembers true texts ++ [0x7d])) := by
  obtain ⟨fields, hkeys, hreads, hall, rfl⟩ := says_members h
  have hsub : (fields.map Prod.fst).Sublist (object.properties.map Prod.fst) := by
    rw [hkeys]
    exact kept_sublist _
  have hunits : ∀ field ∈ fields, ∀ u ∈ field.1, u < 0x10000 := by
    intro field hfield
    obtain ⟨p, hp, heq⟩ := List.mem_map.mp (hsub.subset (List.mem_map_of_mem hfield))
    exact heq ▸ object.keys p hp
  have hproper : (Json.obj fields).Proper :=
    .obj (hsub.nodup object.nodup) (Json.ownOrder_of_sublist hsub object.ordered) hunits hall
  exact ⟨.obj fields, .object href hplain hkeys hreads, hproper, (print_obj fields).symm⟩

theorem says_scalar (hscalar : ∀ ref, value ≠ .object ref) (h : written heap where_ left value = .ok t) : Says heap value t := by
  unfold written at h
  cases value with
  | null =>
    cases h
    exact ⟨.null, .null, .null, rfl⟩
  | bool b =>
    cases h
    refine ⟨.bool b, .bool b, .bool b, ?_⟩
    cases b <;> rfl
  | num n =>
    cases n with
    | negZero =>
      cases h
      refine ⟨.num Double.zero, .negZero, .num _, ?_⟩
      have hzero : Double.zero.value = 0 := rfl
      show [0x30] = Double.zero.text
      rw [Double.text, if_pos hzero]
    | finite x =>
      cases h
      exact ⟨.num x, .num x, .num x, rfl⟩
    | nan => cases h
    | infinite negative => cases h
  | str s =>
    obtain ⟨_, rfl⟩ := (text_eq_ok s.2).mp h
    exact ⟨.str s.1, .str s, .str s.2, rfl⟩
  | object ref => exact absurd rfl (hscalar ref)
  | undefined => cases h
  | symbol => cases h
  | bigint => cases h
  | function => cases h

theorem says_written (h : written heap where_ left value = .ok t) : Says heap value t := by
  induction left generalizing value t with
  | zero =>
    apply says_scalar _ h
    rintro ref rfl
    unfold written at h
    cases h
  | succ left ih =>
    by_cases hobject : ∃ ref, value = .object ref
    · obtain ⟨ref, rfl⟩ := hobject
      cases href : heap ref with
      | array array =>
        rw [written, href] at h
        obtain ⟨values, items, hplain, hitems, rfl⟩ := (writtenArray_eq_ok).mp h
        exact says_array href hplain (hitems.imp fun _ _ => ih)
      | other object =>
        rw [written, href] at h
        obtain ⟨hplain, texts, htexts, rfl⟩ := (writtenObject_eq_ok).mp h
        exact says_object href hplain (htexts.imp fun _ _ hentry => ⟨hentry.1, ih hentry.2⟩)
    · exact says_scalar (fun ref heq => hobject ⟨ref, heq⟩) h

/-! ## The column -/

theorem refused_iff :
    (∃ refusal, jsonInput heap value where_ = .error refusal) ↔
      TooDeep heap value ∨ ContainsItself heap value ∨ HoldsFault heap value := by
  have htaken : (∃ t, jsonInput heap value where_ = .ok t) ↔ ¬TooDeep heap value ∧ ¬HoldsFault heap value := written_taken
  have herror : (∃ refusal, jsonInput heap value where_ = .error refusal) ↔ ¬∃ t, jsonInput heap value where_ = .ok t := by
    cases jsonInput heap value where_ <;> simp
  rw [herror, htaken]
  constructor
  · intro h
    by_cases hdeep : TooDeep heap value
    · exact .inl hdeep
    · by_cases hfault : HoldsFault heap value
      · exact .inr (.inr hfault)
      · exact absurd ⟨hdeep, hfault⟩ h
  · rintro (hdeep | hcycle | hfault) ⟨hnotDeep, hnotFault⟩
    · exact hnotDeep hdeep
    · exact hnotDeep (tooDeep_of_containsItself hcycle)
    · exact hnotFault hfault

/-- SQLite stores the text and reads it as the value. -/
theorem sqliteJson_jsonInput (h : jsonInput heap value where_ = .ok t) :
    ∃ tree, ReadAs heap value tree ∧ sqliteJson (.str t) where_ = .ok (tree.mapNumbers .finite) := by
  obtain ⟨tree, hread, hproper, rfl⟩ := says_written h
  refine ⟨tree, hread, ?_⟩
  simp only [sqliteJson, Json.parse_print hproper]
  rfl

/-- A value is refused exactly for its depth, for containing itself or for a fault; the text of
    any other is well-formed JSON and parses to the value. -/
theorem jsonInput_exact (heap : Heap Ref) (value : Value Ref) (where_ : Units) :
    ((∃ refusal, jsonInput heap value where_ = .error refusal) ↔
        TooDeep heap value ∨ ContainsItself heap value ∨ HoldsFault heap value) ∧
      ∀ t, jsonInput heap value where_ = .ok t →
        ∃ tree, ReadAs heap value tree ∧ Json.parse t = some (tree.mapNumbers .finite) := by
  refine ⟨refused_iff, fun t h => ?_⟩
  obtain ⟨tree, hread, hproper, rfl⟩ := says_written h
  exact ⟨tree, hread, Json.parse_print hproper⟩

/-! ## Two edges of the check -/

/-- `Object.assign([], { x: 1 })`. -/
def namedArray : Heap Unit := fun _ => .array ⟨.arrayPrototype, 0, [], [codeUnits "x"]⟩

/-- An array with a named property of its own is refused for that alone. -/
theorem named_property_refused :
    (∃ refusal, jsonInput namedArray (.object ()) (codeUnits "projects.settings") = .error refusal) ∧
      ¬TooDeep namedArray (.object ()) ∧ ¬ContainsItself namedArray (.object ()) ∧
        ∀ depth part fault, Holds namedArray (.object ()) depth part → Shows namedArray fault part → fault = .namedProperty := by
  have hno : ∀ part, ¬Member namedArray (.object ()) part := by
    rintro part (⟨array, ⟨ref, _, harray⟩, hpart⟩ | ⟨object, ⟨ref, _, hobject⟩, _⟩)
    · cases harray
      cases hpart
    · cases hobject
  have hself : ∀ {depth part}, Holds namedArray (.object ()) depth part → depth = 0 ∧ part = .object () := by
    rintro depth part hholds
    cases hholds with
    | self => exact ⟨rfl, rfl⟩
    | member hmember _ => exact absurd hmember (hno _)
  refine ⟨⟨_, rfl⟩, ?_, ?_, ?_⟩
  · rintro ⟨ref, hholds⟩
    exact absurd (hself hholds).1 (by decide)
  · rintro ⟨m, n, part, hpart, hcycle⟩
    obtain ⟨rfl, rfl⟩ := hself hpart
    exact absurd (hself hcycle).1 (Nat.succ_ne_zero n)
  · rintro depth part fault hholds hshows
    obtain ⟨rfl, rfl⟩ := hself hholds
    have harray : ∀ {found}, IsArray namedArray (.object ()) found → found = ⟨.arrayPrototype, 0, [], [codeUnits "x"]⟩ :=
      (isArray_iff rfl).mp
    have hobject := not_isObject_of_array (show namedArray () = .array ⟨.arrayPrototype, 0, [], [codeUnits "x"]⟩ from rfl)
    cases fault with
    | namedProperty => rfl
    | undefined => cases hshows
    | notJson => rcases hshows with heq | heq | heq <;> cases heq
    | notFinite =>
      rcases hshows with heq | ⟨_, heq⟩
      · cases heq
      · cases heq
    | text =>
      obtain ⟨_, heq, _⟩ := hshows
      cases heq
    | key =>
      obtain ⟨object, hfound, _⟩ := hshows
      exact absurd hfound (hobject object)
    | prototype =>
      rcases hshows with ⟨array, hfound, hne⟩ | ⟨object, hfound, _⟩
      · rw [harray hfound] at hne
        exact absurd rfl hne
      · exact absurd hfound (hobject object)
    | symbolKey =>
      rcases hshows with ⟨array, hfound, hne⟩ | ⟨object, hfound, _⟩
      · rw [harray hfound] at hne
        exact absurd rfl hne
      · exact absurd hfound (hobject object)
    | accessor =>
      rcases hshows with ⟨array, hfound, hmem⟩ | ⟨object, hfound, _⟩
      · rw [harray hfound] at hmem
        cases hmem
      · exact absurd hfound (hobject object)
    | hole =>
      obtain ⟨array, hfound, hmem⟩ := hshows
      rw [harray hfound] at hmem
      cases hmem

/-- `{ "\0": undefined }`. -/
def undefinedMember : Heap Unit := fun _ => .other
  { prototype := .objectPrototype, symbols := 0, properties := [([0], .value .undefined)]
    nodup := by decide, ordered := rfl, keys := by decide }

/-- The name of a member that is left out is not checked. -/
theorem undefined_member_ignored : jsonInput undefinedMember (.object ()) (codeUnits "projects.settings") =
    .ok (codeUnits "\x7b\x7d") := rfl

end Fabrika.Db.JsonColumn
