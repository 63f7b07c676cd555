/-
  Fabrika.Lib.Record — plain objects by name: their own entries, what `object[name]` answers,
  and names in code-unit order.

  A plain object inherits from `Object.prototype`, so a lookup by a name it does not own may
  still answer something. `property` keeps the three answers apart.
-/

import Mathlib.Data.List.AList
import Mathlib.Data.List.Lex
import Mathlib.Data.List.Sort

namespace Fabrika.Lib

abbrev Record (α : Type) := AList fun _ : String => α

/-- `object[name]`: its own value, a property of `Object.prototype`, or `undefined`. -/
inductive Property (α : Type)
  | own (value : α)
  | inherited
  | missing
  deriving DecidableEq

def prototypeProperties : List String :=
  ["constructor", "__defineGetter__", "__defineSetter__", "hasOwnProperty", "__lookupGetter__", "__lookupSetter__",
    "isPrototypeOf", "propertyIsEnumerable", "toString", "valueOf", "__proto__", "toLocaleString"]

namespace Record

variable {α : Type}

def property (record : Record α) (name : String) : Property α :=
  match record.lookup name with
  | some value => .own value
  | none => if prototypeProperties.contains name then .inherited else .missing

variable {name : String} {record : Record α}

theorem property_eq_own {value : α} : record.property name = .own value ↔ record.lookup name = some value := by
  unfold property
  cases record.lookup name with
  | some found => simp
  | none => by_cases h : name ∈ prototypeProperties <;> simp [h]

/-- `Object.entries`. -/
def pairs (record : Record α) : List (String × α) := record.entries.map fun entry => (entry.1, entry.2)

theorem mem_pairs {value : α} : (name, value) ∈ record.pairs ↔ record.lookup name = some value := by
  rw [← Option.mem_def, AList.mem_lookup_iff, pairs, List.mem_map]
  constructor
  · rintro ⟨entry, hmem, he⟩
    cases he
    exact hmem
  · intro hmem
    exact ⟨_, hmem, rfl⟩

theorem lookup_isSome_iff : (∃ value, record.lookup name = some value) ↔ name ∈ record.keys := by
  rw [← Option.isSome_iff_exists, AList.lookup_isSome, AList.mem_keys]

/-- `mapValues`: the same names, in the same order. -/
def mapValues {β : Type} (record : Record α) (f : α → β) : Record β :=
  ⟨record.entries.map fun entry => ⟨entry.1, f entry.2⟩, by
    have h := record.nodupKeys
    unfold List.NodupKeys List.keys at h ⊢
    rwa [List.map_map]⟩

theorem lookup_mapValues {β : Type} (record : Record α) (f : α → β) (name : String) :
    (record.mapValues f).lookup name = (record.lookup name).map f := by
  obtain ⟨entries, h⟩ := record
  simp only [mapValues, AList.lookup]
  clear h
  induction entries with
  | nil => simp
  | cons entry rest ih =>
    obtain ⟨key, value⟩ := entry
    by_cases hk : name = key
    · subst hk
      simp [List.dlookup_cons_eq]
    · rw [List.map_cons, List.dlookup_cons_ne _ _ hk, List.dlookup_cons_ne _ _ hk, ih]

end Record

/-! ## Sorting by a key -/

section
variable {α K : Type} [LinearOrder K] {key : α → K}

/-- `[...values].sort((a, b) => compare(key(a), key(b)))`, a stable sort. -/
def sortOn (key : α → K) (values : List α) : List α := values.insertionSort fun a b => key a ≤ key b

theorem sortOn_perm (key : α → K) (values : List α) : (sortOn key values).Perm values := List.perm_insertionSort _ values

theorem sortOn_pairwise (key : α → K) (values : List α) : (sortOn key values).Pairwise fun a b => key a ≤ key b :=
  haveI : Std.Total fun a b : α => key a ≤ key b := ⟨fun a b => le_total (key a) (key b)⟩
  haveI : IsTrans α fun a b => key a ≤ key b := ⟨fun _ _ _ hab hbc => hab.trans hbc⟩
  List.pairwise_insertionSort _ values

theorem sortOn_sortOn (key : α → K) (values : List α) : sortOn key (sortOn key values) = sortOn key values :=
  (sortOn_pairwise key values).insertionSort_eq

theorem map_sortOn {β : Type} {f : α → β} (name : β → K) {values : List α} (h : ∀ a ∈ values, name (f a) = key a) :
    (sortOn key values).map f = sortOn name (values.map f) := by
  refine List.map_insertionSort _ _ f values fun a ha b hb => ?_
  rw [h a ha, h b hb]

/-- Values that their keys tell apart are sorted in one way. -/
theorem sortOn_eq_of_perm {values others : List α} (hkey : ∀ a ∈ values, ∀ b ∈ values, key a = key b → a = b)
    (h : values.Perm others) : sortOn key values = sortOn key others := by
  have hperm := (sortOn_perm key values).trans (h.trans (sortOn_perm key others).symm)
  refine List.Perm.eq_of_pairwise ?_ (sortOn_pairwise key values) (sortOn_pairwise key others) hperm
  intro a b ha hb hab hba
  have ha := (sortOn_perm key values).mem_iff.mp ha
  have hb := h.mem_iff.mpr ((sortOn_perm key others).mem_iff.mp hb)
  exact hkey a ha b hb (le_antisymm hab hba)

end

/-! ## Names in code-unit order -/

def codeUnits (s : String) : List Nat :=
  s.toList.flatMap fun c =>
    if c.toNat < 0x10000 then [c.toNat] else [0xD800 + (c.toNat - 0x10000) / 0x400, 0xDC00 + (c.toNat - 0x10000) % 0x400]

/-- The code units of one character; no text's continue to spell another character. -/
theorem codeUnits_char_inj {c d : Char} {r q : List Nat}
    (h : (if c.toNat < 0x10000 then [c.toNat] else [0xD800 + (c.toNat - 0x10000) / 0x400,
      0xDC00 + (c.toNat - 0x10000) % 0x400]) ++ r
      = (if d.toNat < 0x10000 then [d.toNat] else [0xD800 + (d.toNat - 0x10000) / 0x400, 0xDC00 + (d.toNat - 0x10000) % 0x400]) ++
      q) :
    c = d ∧ r = q := by
  have hvalid : ∀ e : Char, e.toNat < 0xD800 ∨ (0xDFFF < e.toNat ∧ e.toNat < 0x110000) := fun e => e.valid
  have hcv := hvalid c
  have hdv := hvalid d
  by_cases hc : c.toNat < 0x10000
  · by_cases hd : d.toNat < 0x10000
    · simp only [hc, hd, if_true, List.cons_append, List.nil_append, List.cons.injEq] at h
      exact ⟨Char.toNat_inj.mp h.1, h.2⟩
    · simp only [hc, hd, if_true, if_false, List.cons_append, List.nil_append, List.cons.injEq] at h
      omega
  · by_cases hd : d.toNat < 0x10000
    · simp only [hc, hd, if_true, if_false, List.cons_append, List.nil_append, List.cons.injEq] at h
      omega
    · simp only [hc, hd, if_false, List.cons_append, List.nil_append, List.cons.injEq] at h
      exact ⟨Char.toNat_inj.mp (by omega), h.2.2⟩

theorem codeUnits_injective : Function.Injective codeUnits := by
  intro s t h
  apply String.toList_inj.mp
  unfold codeUnits at h
  generalize s.toList = cs at h
  generalize t.toList = ds at h
  induction cs generalizing ds with
  | nil =>
    cases ds with
    | nil => rfl
    | cons d ds =>
      rw [List.flatMap_nil, List.flatMap_cons] at h
      split at h <;> simp at h
  | cons c cs ih =>
    cases ds with
    | nil =>
      rw [List.flatMap_nil, List.flatMap_cons] at h
      split at h <;> simp at h
    | cons d ds =>
      rw [List.flatMap_cons, List.flatMap_cons] at h
      obtain ⟨rfl, hrest⟩ := codeUnits_char_inj h
      rw [ih ds hrest]

def sorted (names : List String) : List String := names.insertionSort fun a b => codeUnits a ≤ codeUnits b

theorem perm_sorted (names : List String) : (sorted names).Perm names := List.perm_insertionSort _ names

@[simp] theorem mem_sorted {name : String} {names : List String} : name ∈ sorted names ↔ name ∈ names :=
  (perm_sorted names).mem_iff

/-- `[...new Set([...a, ...b])].sort()`. -/
def union (a b : List String) : List String := sorted (a ++ b).eraseDups

@[simp] theorem mem_union {name : String} {a b : List String} : name ∈ union a b ↔ name ∈ a ∨ name ∈ b := by
  simp [union]

end Fabrika.Lib
