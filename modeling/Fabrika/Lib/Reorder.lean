/-
  Fabrika.Lib.Reorder — JSON values up to the order of their objects' keys and of the lists
  whose order carries no meaning.

  A `Layout` says which lists those are. It walks a value from place to place: from an object
  to its fields (by the text of a tag field, where an object has variants) and from a list to
  its items. `Same` is the least relation that reorders keys and unordered lists anywhere in
  a value; `canon` sorts them all.

  Proved: for values that fit the layout, `canon` decides `Same` (`canon_eq_iff`).
  `normal_update` and `normal_rebuild` say when a program that sorts an object's fields one
  by one computes `canon`.
-/

import Fabrika.Lib.Json
import Mathlib.Data.List.Perm.Basic

namespace Fabrika.Lib

namespace Json

variable {N : Type}

/-- A string's own text; a value that is no string has none. -/
def textOf? : Json N → Option Units
  | .str s => some s
  | _ => none

def textAt (fields : List (Units × Json N)) (key : Units) : Option Units := (fields.lookup key).bind textOf?

/-- What a list of strings is sorted by. -/
def sortText (v : Json N) : Units := v.textOf?.getD []

/-- What a list of objects is sorted by: the text of one field. -/
def fieldText (key : Units) : Json N → Units
  | .obj fields => (textAt fields key).getD []
  | _ => []

end Json

inductive Order
  | fixed
  /-- Strings in any order. -/
  | byText
  /-- Objects in any order, each named by its text at `key`. -/
  | byField (key : Units)
  deriving DecidableEq

/-- `field place tag key` is where the field `key` of an object at `place` lies, `tag` being the
    text of its tag field. -/
structure Layout (S : Type) where
  order : S → Order
  item : S → S
  tag : S → Option Units
  field : S → Option Units → Units → S

namespace Layout

open Json

variable {N S : Type} (L : Layout S)

def tagOf (place : S) (fields : List (Units × Json N)) : Option Units := (L.tag place).bind (textAt fields)

def fieldPlace (place : S) (fields : List (Units × Json N)) (key : Units) : S := L.field place (L.tagOf place fields) key

def arrange : Order → List (Json N) → List (Json N)
  | .fixed, items => items
  | .byText, items => sortOn sortText items
  | .byField key, items => sortOn (fieldText key) items

/-- `w` is `v` with object keys and unordered lists in another order, anywhere in it. -/
inductive Same : S → Json N → Json N → Prop
  | refl (place : S) (v : Json N) : Same place v v
  | trans {place : S} {u v w : Json N} : Same place u v → Same place v w → Same place u w
  | keys {place : S} {fs gs : List (Units × Json N)} : fs.Perm gs → Same place (.obj fs) (.obj gs)
  | items {place : S} {xs ys : List (Json N)} : L.order place ≠ .fixed → xs.Perm ys → Same place (.arr xs) (.arr ys)
  | field {place : S} {fs gs : List (Units × Json N)} {key : Units} {v w : Json N} :
    Same (L.fieldPlace place (fs ++ (key, v) :: gs) key) v w →
    Same place (.obj (fs ++ (key, v) :: gs)) (.obj (fs ++ (key, w) :: gs))
  | item {place : S} {xs ys : List (Json N)} {v w : Json N} :
    Same (L.item place) v w → Same place (.arr (xs ++ v :: ys)) (.arr (xs ++ w :: ys))

/-- The items of an unordered list are told apart by what they are sorted by. -/
def Arranged : Order → List (Json N) → Prop
  | .fixed, _ => True
  | .byText, items => ∀ v ∈ items, ∃ s, v = .str s
  | .byField key, items => (items.map (fieldText key)).Nodup

/-- `P` holds of each part of a value, at the part's place. -/
inductive Everywhere (P : S → Json N → Prop) : S → Json N → Prop
  | null {place : S} : P place .null → Everywhere P place .null
  | bool {place : S} {b : Bool} : P place (.bool b) → Everywhere P place (.bool b)
  | num {place : S} {n : N} : P place (.num n) → Everywhere P place (.num n)
  | str {place : S} {s : Units} : P place (.str s) → Everywhere P place (.str s)
  | arr {place : S} {xs : List (Json N)} :
    P place (.arr xs) → (∀ x ∈ xs, Everywhere P (L.item place) x) → Everywhere P place (.arr xs)
  | obj {place : S} {fs : List (Units × Json N)} :
    P place (.obj fs) → (∀ f ∈ fs, Everywhere P (L.fieldPlace place fs f.1) f.2) → Everywhere P place (.obj fs)

/-- An object's keys are distinct, and an unordered list's items told apart. -/
def Apart (place : S) : Json N → Prop
  | .arr xs => Arranged (L.order place) xs
  | .obj fs => (fs.map Prod.fst).Nodup
  | _ => True

mutual
/-- Whether `P` holds of each part of a value, at the part's place. -/
def everywhere (P : S → Json N → Bool) : S → Json N → Bool
  | place, .null => P place .null
  | place, .bool b => P place (.bool b)
  | place, .num n => P place (.num n)
  | place, .str s => P place (.str s)
  | place, .arr xs => P place (.arr xs) && everywhereItems P (L.item place) xs
  | place, .obj fs => P place (.obj fs) && everywhereFields P (L.fieldPlace place fs) fs
def everywhereItems (P : S → Json N → Bool) : S → List (Json N) → Bool
  | _, [] => true
  | place, x :: xs => everywhere P place x && everywhereItems P place xs
def everywhereFields (P : S → Json N → Bool) : (Units → S) → List (Units × Json N) → Bool
  | _, [] => true
  | places, (key, v) :: fs => everywhere P (places key) v && everywhereFields P places fs
end

mutual
/-- The value with every unordered list and every object's keys sorted. -/
def canon : S → Json N → Json N
  | _, .null => .null
  | _, .bool b => .bool b
  | _, .num n => .num n
  | _, .str s => .str s
  | place, .arr xs => .arr (arrange (L.order place) (canonItems (L.item place) xs))
  | place, .obj fs => .obj (sortKeys (canonFields (L.fieldPlace place fs) fs))
def canonItems : S → List (Json N) → List (Json N)
  | _, [] => []
  | place, x :: xs => canon place x :: canonItems place xs
def canonFields : (Units → S) → List (Units × Json N) → List (Units × Json N)
  | _, [] => []
  | places, (k, v) :: fs => (k, canon (places k) v) :: canonFields places fs
end

theorem canonItems_eq (place : S) (xs : List (Json N)) : L.canonItems place xs = xs.map (L.canon place) := by
  induction xs with
  | nil => rfl
  | cons x xs ih => rw [canonItems, ih, List.map_cons]

theorem canonFields_eq (places : Units → S) (fs : List (Units × Json N)) :
    L.canonFields places fs = fs.map fun f => (f.1, L.canon (places f.1) f.2) := by
  induction fs with
  | nil => rfl
  | cons f fs ih =>
    obtain ⟨k, v⟩ := f
    rw [canonFields, ih, List.map_cons]

theorem canon_arr (place : S) (xs : List (Json N)) :
    L.canon place (.arr xs) = .arr (arrange (L.order place) (xs.map (L.canon (L.item place)))) := by
  rw [canon, canonItems_eq]

theorem canon_obj (place : S) (fs : List (Units × Json N)) :
    L.canon place (.obj fs) = .obj (sortKeys (fs.map fun f => (f.1, L.canon (L.fieldPlace place fs f.1) f.2))) := by
  rw [canon, canonFields_eq]

/-! ## What reordering keeps -/

variable {L}

theorem everywhereItems_eq (P : S → Json N → Bool) (place : S) (xs : List (Json N)) :
    L.everywhereItems P place xs = xs.all (L.everywhere P place) := by
  induction xs with
  | nil => rfl
  | cons x xs ih => rw [everywhereItems, ih, List.all_cons]

theorem everywhereFields_eq (P : S → Json N → Bool) (places : Units → S) (fs : List (Units × Json N)) :
    L.everywhereFields P places fs = fs.all fun f => L.everywhere P (places f.1) f.2 := by
  induction fs with
  | nil => rfl
  | cons f fs ih =>
    obtain ⟨key, v⟩ := f
    rw [everywhereFields, ih, List.all_cons]

variable {place : S} {v w : Json N} {fs gs : List (Units × Json N)}

theorem everywhere_of_check {P : S → Json N → Prop} [∀ place v, Decidable (P place v)] (v : Json N) :
    ∀ place, L.everywhere (fun place v => decide (P place v)) place v = true → L.Everywhere P place v := by
  induction v using Json.inductionOn with
  | null => exact fun place h => .null (of_decide_eq_true h)
  | bool b => exact fun place h => .bool (of_decide_eq_true h)
  | num n => exact fun place h => .num (of_decide_eq_true h)
  | str s => exact fun place h => .str (of_decide_eq_true h)
  | arr xs ih =>
    intro place h
    rw [everywhere, everywhereItems_eq, Bool.and_eq_true, List.all_eq_true] at h
    exact .arr (of_decide_eq_true h.1) fun x hx => ih x hx _ (h.2 x hx)
  | obj fs ih =>
    intro place h
    rw [everywhere, everywhereFields_eq, Bool.and_eq_true, List.all_eq_true] at h
    exact .obj (of_decide_eq_true h.1) fun f hf => ih f hf _ (h.2 f hf)

theorem Same.textOf?_eq (h : L.Same place v w) : v.textOf? = w.textOf? := by
  induction h with
  | refl place v => rfl
  | trans _ _ ihu ihv => exact ihu.trans ihv
  | keys _ => rfl
  | items _ _ => rfl
  | field _ _ => rfl
  | item _ _ => rfl

theorem textAt_replace {key : Units} (h : v.textOf? = w.textOf?) (name : Units) :
    textAt (fs ++ (key, v) :: gs) name = textAt (fs ++ (key, w) :: gs) name := by
  simp only [textAt, List.lookup_append, List.lookup_cons]
  cases fs.lookup name with
  | some value => rfl
  | none =>
    cases name == key with
    | true => exact h
    | false => rfl

theorem fieldPlace_replace {key : Units} (h : v.textOf? = w.textOf?) :
    L.fieldPlace place (fs ++ (key, v) :: gs) = L.fieldPlace place (fs ++ (key, w) :: gs) := by
  funext name
  simp only [fieldPlace, tagOf]
  cases L.tag place with
  | none => rfl
  | some tag => rw [Option.bind_some, Option.bind_some, textAt_replace h]

theorem Same.symm (h : L.Same place v w) : L.Same place w v := by
  induction h with
  | refl place v => exact .refl place v
  | trans _ _ ihu ihv => exact ihv.trans ihu
  | keys hperm => exact .keys hperm.symm
  | items horder hperm => exact .items horder hperm.symm
  | field h ih =>
    apply Same.field
    rwa [← fieldPlace_replace h.textOf?_eq]
  | item _ ih => exact .item ih

/-- Each item of a list reordered in itself. -/
theorem Same.map_items {f : Json N → Json N} (before xs : List (Json N)) (h : ∀ x ∈ xs, L.Same (L.item place) x (f x)) :
    L.Same place (.arr (before ++ xs)) (.arr (before ++ xs.map f)) := by
  induction xs generalizing before with
  | nil => exact .refl _ _
  | cons x xs ih =>
    have hfirst : L.Same place (.arr (before ++ x :: xs)) (.arr (before ++ f x :: xs)) := .item (h x List.mem_cons_self)
    have hrest := ih (before ++ [f x]) fun y hy => h y (List.mem_cons_of_mem _ hy)
    rw [List.append_assoc, List.append_assoc, List.singleton_append, List.singleton_append] at hrest
    exact hfirst.trans hrest

/-- Each field of an object reordered in itself. -/
theorem Same.map_fields {f : Units → Json N → Json N} (before fs : List (Units × Json N))
    (h : ∀ g ∈ fs, L.Same (L.fieldPlace place (before ++ fs) g.1) g.2 (f g.1 g.2)) :
    L.Same place (.obj (before ++ fs)) (.obj (before ++ fs.map fun g => (g.1, f g.1 g.2))) := by
  induction fs generalizing before with
  | nil => exact .refl _ _
  | cons g fs ih =>
    obtain ⟨key, v⟩ := g
    have hv := h (key, v) List.mem_cons_self
    have hfirst : L.Same place (.obj (before ++ (key, v) :: fs)) (.obj (before ++ (key, f key v) :: fs)) := .field hv
    have hrest := ih (before ++ [(key, f key v)]) fun y hy => by
      have hy := h y (List.mem_cons_of_mem _ hy)
      rwa [List.append_assoc, List.singleton_append, ← fieldPlace_replace hv.textOf?_eq]
    rw [List.append_assoc, List.append_assoc, List.singleton_append, List.singleton_append] at hrest
    exact hfirst.trans hrest

theorem Same.arrange_items (place : S) (xs : List (Json N)) : L.Same place (.arr xs) (.arr (arrange (L.order place) xs)) := by
  cases horder : L.order place with
  | fixed => exact .refl _ _
  | byText => exact .items (by simp [horder]) (sortOn_perm _ xs).symm
  | byField key => exact .items (by simp [horder]) (sortOn_perm _ xs).symm

theorem same_canon (place : S) (v : Json N) : L.Same place v (L.canon place v) := by
  induction v using Json.inductionOn generalizing place with
  | arr xs ih =>
    rw [canon_arr]
    exact (Same.map_items [] xs fun x hx => ih x hx _).trans (Same.arrange_items place _)
  | obj fs ih =>
    rw [canon_obj]
    have hfields : L.Same place (.obj fs) (.obj (fs.map fun g => (g.1, L.canon (L.fieldPlace place fs g.1) g.2))) :=
      Same.map_fields (f := fun key => L.canon (L.fieldPlace place fs key)) [] fs fun g hg => ih g hg _
    exact hfields.trans (.keys (sortKeys_perm _).symm)
  | _ => exact .refl _ _

/-! ## One canonical value for each class -/

theorem textOf?_canon (place : S) (v : Json N) : (L.canon place v).textOf? = v.textOf? := (same_canon place v).textOf?_eq.symm

theorem lookup_eq_of_perm {α : Type} {fs gs : List (Units × α)} (hkeys : (fs.map Prod.fst).Nodup) (h : fs.Perm gs) (key : Units) :
    fs.lookup key = gs.lookup key := by
  apply Option.ext
  intro value
  rw [Json.lookup_eq_some_iff hkeys, Json.lookup_eq_some_iff ((h.map Prod.fst).nodup_iff.mp hkeys), h.mem_iff]

theorem textAt_eq_of_perm (hkeys : (fs.map Prod.fst).Nodup) (h : fs.Perm gs) (key : Units) : textAt fs key = textAt gs key := by
  rw [textAt, lookup_eq_of_perm hkeys h, textAt]

theorem fieldPlace_eq_of_perm (hkeys : (fs.map Prod.fst).Nodup) (h : fs.Perm gs) :
    L.fieldPlace place fs = L.fieldPlace place gs := by
  funext name
  simp only [fieldPlace, tagOf]
  cases L.tag place with
  | none => rfl
  | some tag => rw [Option.bind_some, Option.bind_some, textAt_eq_of_perm hkeys h]

theorem textAt_map {f : Units → Json N → Json N} (hf : ∀ k v, (f k v).textOf? = v.textOf?) (key : Units) :
    textAt (fs.map fun g => (g.1, f g.1 g.2)) key = textAt fs key := by
  induction fs with
  | nil => rfl
  | cons g fs ih =>
    obtain ⟨name, v⟩ := g
    simp only [textAt, List.map_cons, List.lookup_cons] at ih ⊢
    cases key == name with
    | true => exact hf _ _
    | false => exact ih

/-- An item is sorted by the same text before and after its own parts are sorted. -/
theorem fieldText_canon (h : L.Everywhere L.Apart place v) (key : Units) :
    fieldText key (L.canon place v) = fieldText key v := by
  cases h with
  | @obj _ fs hkeys _ =>
    have hmap : ((fs.map fun g => (g.1, L.canon (L.fieldPlace place fs g.1) g.2)).map Prod.fst).Nodup := by
      rw [List.map_map]
      exact hkeys
    rw [canon_obj, fieldText, fieldText, ← textAt_eq_of_perm hmap (sortKeys_perm _).symm,
      textAt_map (f := fun k => L.canon (L.fieldPlace place fs k)) fun k w => textOf?_canon _ w]
  | arr _ _ => rw [canon_arr]; rfl
  | null _ => rfl
  | bool _ => rfl
  | num _ => rfl
  | str _ => rfl

theorem sortText_inj {s t : Units} (hv : v = .str s) (hw : w = .str t) (h : sortText v = sortText w) : v = w := by
  subst hv hw
  simp only [sortText, textOf?, Option.getD_some] at h
  rw [h]

theorem canon_eq_of_perm_items {xs ys : List (Json N)} (h : L.Everywhere L.Apart place (.arr xs))
    (horder : L.order place ≠ .fixed) (hperm : xs.Perm ys) : L.canon place (.arr xs) = L.canon place (.arr ys) := by
  cases h with
  | arr happart hitems =>
    have hmap := hperm.map (L.canon (L.item place))
    rw [canon_arr, canon_arr]
    congr 1
    simp only [Apart] at happart
    cases hcase : L.order place with
    | fixed => exact absurd hcase horder
    | byText =>
      rw [hcase] at happart
      apply sortOn_eq_of_perm _ hmap
      have hstr : ∀ v ∈ xs.map (L.canon (L.item place)), ∃ s, v = .str s := by
        intro v hv
        obtain ⟨x, hx, rfl⟩ := List.mem_map.mp hv
        obtain ⟨s, rfl⟩ := happart x hx
        exact ⟨s, rfl⟩
      intro v hv w hw hvw
      obtain ⟨s, hs⟩ := hstr v hv
      obtain ⟨t, ht⟩ := hstr w hw
      exact sortText_inj hs ht hvw
    | byField key =>
      rw [hcase] at happart
      apply sortOn_eq_of_perm _ hmap
      have hkeys : ((xs.map (L.canon (L.item place))).map (fieldText key)).Nodup := by
        have hsame : xs.map (fieldText key ∘ L.canon (L.item place)) = xs.map (fieldText key) :=
          List.map_congr_left fun x hx => fieldText_canon (hitems x hx) key
        rw [List.map_map, hsame]
        exact happart
      exact fun _ hv _ hw => List.inj_on_of_nodup_map hkeys hv hw

theorem Arranged.perm {order : Order} {xs ys : List (Json N)} (h : Arranged order xs) (hperm : xs.Perm ys) :
    Arranged order ys := by
  cases order with
  | fixed => trivial
  | byText => exact fun v hv => h v (hperm.mem_iff.mpr hv)
  | byField key => exact (hperm.map (fieldText key)).nodup_iff.mp h

theorem canon_eq_of_same (h : L.Same place v w) (hv : L.Everywhere L.Apart place v) :
    L.canon place v = L.canon place w ∧ L.Everywhere L.Apart place w := by
  induction h with
  | refl place v => exact ⟨rfl, hv⟩
  | trans _ _ ihu ihv =>
    obtain ⟨hu, hmiddle⟩ := ihu hv
    obtain ⟨hw, hlast⟩ := ihv hmiddle
    exact ⟨hu.trans hw, hlast⟩
  | keys hperm =>
    rename_i place fs gs
    cases hv with
    | obj hkeys hfields =>
      have hplace : L.fieldPlace place fs = L.fieldPlace place gs := fieldPlace_eq_of_perm hkeys hperm
      constructor
      · rw [canon_obj, canon_obj, hplace]
        congr 1
        apply sortKeys_eq_of_perm
        · rw [List.map_map]
          exact hkeys
        · exact hperm.map _
      · refine .obj ((hperm.map Prod.fst).nodup_iff.mp hkeys) fun f hf => ?_
        rw [← hplace]
        exact hfields f (hperm.mem_iff.mpr hf)
  | items horder hperm =>
    refine ⟨canon_eq_of_perm_items hv horder hperm, ?_⟩
    cases hv with
    | arr happart hitems => exact .arr (Arranged.perm happart hperm) fun x hx => hitems x (hperm.mem_iff.mpr hx)
  | field h ih =>
    rename_i place fs gs key v w
    have hplace : L.fieldPlace place (fs ++ (key, v) :: gs) = L.fieldPlace place (fs ++ (key, w) :: gs) :=
      fieldPlace_replace h.textOf?_eq
    cases hv with
    | obj hkeys hfields =>
      obtain ⟨hcanon, hw⟩ := ih (hfields (key, v) (by simp))
      constructor
      · rw [canon_obj, canon_obj, ← hplace]
        simp only [List.map_append, List.map_cons, hcanon]
      · refine .obj ?_ fun f hf => ?_
        · simpa [Apart] using hkeys
        · rw [← hplace]
          rcases List.mem_append.mp hf with hf | hf
          · exact hfields f (List.mem_append_left _ hf)
          · rcases List.mem_cons.mp hf with rfl | hf
            · exact hw
            · exact hfields f (List.mem_append_right _ (List.mem_cons_of_mem _ hf))
  | item h ih =>
    rename_i place xs ys v w
    cases hv with
    | arr happart hitems =>
      have hv := hitems v (by simp)
      obtain ⟨hcanon, hw⟩ := ih hv
      constructor
      · rw [canon_arr, canon_arr]
        simp only [List.map_append, List.map_cons, hcanon]
      · refine .arr ?_ fun x hx => ?_
        · simp only [Apart] at happart ⊢
          cases hcase : L.order place with
          | fixed => trivial
          | byText =>
            rw [hcase] at happart
            intro x hx
            rcases List.mem_append.mp hx with hx | hx
            · exact happart x (List.mem_append_left _ hx)
            · rcases List.mem_cons.mp hx with rfl | hx
              · -- A string is reordered into itself only.
                obtain ⟨s, rfl⟩ := happart v (by simp)
                have htext := h.textOf?_eq
                cases x with
                | str t => exact ⟨t, rfl⟩
                | _ => cases htext
              · exact happart x (List.mem_append_right _ (List.mem_cons_of_mem _ hx))
          | byField key =>
            rw [hcase] at happart
            have htext : fieldText key v = fieldText key w := by
              rw [← fieldText_canon hv, hcanon, fieldText_canon hw]
            simpa [Arranged, htext] using happart
        · rcases List.mem_append.mp hx with hx | hx
          · exact hitems x (List.mem_append_left _ hx)
          · rcases List.mem_cons.mp hx with rfl | hx
            · exact hw
            · exact hitems x (List.mem_append_right _ (List.mem_cons_of_mem _ hx))

theorem canon_eq_iff (hv : L.Everywhere L.Apart place v) : L.canon place v = L.canon place w ↔ L.Same place v w := by
  constructor
  · intro h
    exact (same_canon place v).trans (h ▸ (same_canon place w).symm)
  · intro h
    exact (canon_eq_of_same h hv).1

theorem Everywhere.mono {P Q : S → Json N → Prop} (hPQ : ∀ place v, P place v → Q place v) (h : L.Everywhere P place v) :
    L.Everywhere Q place v := by
  induction h with
  | null h => exact .null (hPQ _ _ h)
  | bool h => exact .bool (hPQ _ _ h)
  | num h => exact .num (hPQ _ _ h)
  | str h => exact .str (hPQ _ _ h)
  | arr h _ ih => exact .arr (hPQ _ _ h) ih
  | obj h _ ih => exact .obj (hPQ _ _ h) ih

/-- A place below which every list is ordered. -/
structure IsPlain (L : Layout S) (place : S) : Prop where
  order : L.order place = .fixed
  item : L.item place = place
  field : ∀ tag key, L.field place tag key = place

theorem IsPlain.canon_eq (h : L.IsPlain place) (v : Json N) : L.canon place v = normal v := by
  induction v using Json.inductionOn with
  | arr xs ih =>
    rw [canon_arr, normal_arr, h.order, h.item]
    congr 1
    exact List.map_congr_left ih
  | obj fs ih =>
    rw [canon_obj, normal_obj]
    congr 2
    refine List.map_congr_left fun f hf => ?_
    rw [fieldPlace, h.field, ih f hf]
    rfl
  | _ => simp only [canon, normal]

end Layout

/-! ## Objects written field by field -/

namespace Json

variable {N : Type}

/-- `{ ...value, name: f(value.name), … }`, for fields the value has. -/
def update (spec : List (String × (Json N → Json N))) : Json N → Json N
  | .obj fs => .obj (fs.map fun g => (g.1, ((names spec).lookup g.1).getD id g.2))
  | v => v

/-- The fields `name` of `{ name: f(value.name), … }`: of those the value has, the ones `f`
    writes. -/
def rebuildFields (spec : List (Units × (Json N → Option (Json N)))) (fs : List (Units × Json N)) : List (Units × Json N) :=
  spec.flatMap fun entry => ((fs.lookup entry.1).bind entry.2).toList.map fun v => (entry.1, v)

/-- `{ name: f(value.name), … }`. -/
def rebuild (spec : List (String × (Json N → Option (Json N)))) : Json N → Json N
  | .obj fs => .obj (rebuildFields (names spec) fs)
  | v => v

variable {key : Units} {fs : List (Units × Json N)} {spec : List (Units × (Json N → Option (Json N)))}

theorem mem_rebuildFields {w : Json N} :
    (key, w) ∈ rebuildFields spec fs ↔ ∃ f, (key, f) ∈ spec ∧ (fs.lookup key).bind f = some w := by
  simp only [rebuildFields, List.mem_flatMap, List.mem_map, Option.mem_toList, Prod.mk.injEq]
  constructor
  · rintro ⟨⟨name, f⟩, hmem, v, hv, rfl, rfl⟩
    exact ⟨f, hmem, hv⟩
  · rintro ⟨f, hmem, hv⟩
    exact ⟨(key, f), hmem, w, hv, rfl, rfl⟩

theorem keys_rebuildFields_sublist (spec : List (Units × (Json N → Option (Json N)))) (fs : List (Units × Json N)) :
    ((rebuildFields spec fs).map Prod.fst).Sublist (spec.map Prod.fst) := by
  induction spec with
  | nil => simp [rebuildFields]
  | cons entry spec ih =>
    rw [rebuildFields, List.flatMap_cons, List.map_append, List.map_cons]
    cases (fs.lookup entry.1).bind entry.2 with
    | none => exact ih.cons _
    | some v => exact ih.cons_cons _

theorem lookup_rebuildFields (hspec : (spec.map Prod.fst).Nodup) (fs : List (Units × Json N)) {f : Json N → Option (Json N)}
    (h : (key, f) ∈ spec) : (rebuildFields spec fs).lookup key = (fs.lookup key).bind f := by
  apply Option.ext
  intro w
  rw [lookup_eq_some_iff ((keys_rebuildFields_sublist spec fs).nodup hspec), mem_rebuildFields]
  constructor
  · rintro ⟨g, hg, hw⟩
    have hfg : f = g := by
      have hentry := List.inj_on_of_nodup_map hspec h hg rfl
      exact congrArg Prod.snd hentry
    rwa [hfg]
  · intro hw
    exact ⟨f, h, hw⟩

theorem mem_of_lookup_eq_some {α : Type} {fields : List (Units × α)} {value : α} (h : fields.lookup key = some value) :
    (key, value) ∈ fields := by
  induction fields with
  | nil => cases h
  | cons field rest ih =>
    obtain ⟨name, first⟩ := field
    by_cases hk : key = name
    · subst hk
      simp only [List.lookup_cons_self, Option.some.injEq] at h
      rw [h]
      exact List.mem_cons_self
    · rw [List.lookup_cons, beq_eq_false_iff_ne.mpr hk] at h
      exact List.mem_cons_of_mem _ (ih h)

theorem rebuild_rebuild {spec : List (String × (Json N → Option (Json N)))} (hspec : ((names spec).map Prod.fst).Nodup)
    (h : ∀ entry ∈ spec, ∀ v, (codeUnits entry.1, v) ∈ fs → ∀ w, entry.2 v = some w → entry.2 w = some w) :
    rebuild spec (rebuild spec (.obj fs)) = rebuild spec (.obj fs) := by
  have hfields : rebuildFields (names spec) (rebuildFields (names spec) fs) = rebuildFields (names spec) fs := by
    conv_lhs => rw [rebuildFields]
    conv_rhs => rw [rebuildFields]
    refine List.flatMap_congr fun entry hentry => ?_
    obtain ⟨key, f⟩ := entry
    obtain ⟨name, rfl, hmem⟩ := mem_names.mp hentry
    rw [lookup_rebuildFields hspec fs hentry]
    cases hv : (fs.lookup (codeUnits name)).bind f with
    | none => rfl
    | some w =>
      obtain ⟨v, hv, hfv⟩ := Option.bind_eq_some_iff.mp hv
      rw [Option.bind_some, h _ hmem v (mem_of_lookup_eq_some hv) w hfv]
  simp only [rebuild, hfields]

theorem update_update {spec : List (String × (Json N → Json N))}
    (h : ∀ entry ∈ spec, ∀ v, (codeUnits entry.1, v) ∈ fs → entry.2 (entry.2 v) = entry.2 v) :
    update spec (update spec (.obj fs)) = update spec (.obj fs) := by
  simp only [update, List.map_map, Json.obj.injEq]
  refine List.map_congr_left fun g hg => ?_
  simp only [Function.comp_apply, Prod.mk.injEq, true_and]
  cases hf : (names spec).lookup g.1 with
  | none => rfl
  | some f =>
    obtain ⟨name, hname, hmem⟩ := mem_names.mp (mem_of_lookup_eq_some hf)
    exact h _ hmem g.2 (hname ▸ hg)

/-- A field that is not written keeps its value. -/
theorem lookup_update {spec : List (String × (Json N → Json N))} (hkey : (names spec).lookup key = none)
    (fs : List (Units × Json N)) : (fs.map fun g => (g.1, ((names spec).lookup g.1).getD id g.2)).lookup key = fs.lookup key := by
  induction fs with
  | nil => rfl
  | cons g fs ih =>
    obtain ⟨name, v⟩ := g
    simp only [List.map_cons, List.lookup_cons]
    by_cases h : key = name
    · subst h
      simp [hkey]
    · rw [beq_eq_false_iff_ne.mpr h]
      exact ih

end Json

namespace Layout

open Json

variable {N S : Type} {L : Layout S}

/-- An object whose fields are sorted in place. -/
theorem normal_update {spec : List (String × (Json N → Json N))} {place : S} {fs : List (Units × Json N)}
    (h : ∀ f ∈ fs, normal (((names spec).lookup f.1).getD id f.2) = L.canon (L.fieldPlace place fs f.1) f.2) :
    normal (update spec (.obj fs)) = L.canon place (.obj fs) := by
  rw [update, normal_obj, canon_obj, List.map_map]
  congr 2
  refine List.map_congr_left fun f hf => ?_
  rw [← h f hf]
  rfl

/-- An object written anew from all of its fields. -/
theorem normal_rebuild {spec : List (String × (Json N → Option (Json N)))} (hspec : ((names spec).map Prod.fst).Nodup) {place : S}
    {fs : List (Units × Json N)} (hkeys : (fs.map Prod.fst).Nodup)
    (h : ∀ f ∈ fs, ∃ g w, (f.1, g) ∈ names spec ∧ g f.2 = some w ∧ normal w = L.canon (L.fieldPlace place fs f.1) f.2) :
    normal (rebuild spec (.obj fs)) = L.canon place (.obj fs) := by
  have hrebuilt := (keys_rebuildFields_sublist (names spec) fs).nodup hspec
  rw [rebuild, normal_obj, canon_obj]
  congr 1
  have hleft : (((rebuildFields (names spec) fs).map (Prod.map id normal)).map Prod.fst).Nodup := by
    rw [keys_map_normal]
    exact hrebuilt
  have hright : ((fs.map fun f => (f.1, L.canon (L.fieldPlace place fs f.1) f.2)).map Prod.fst).Nodup := by
    rw [List.map_map]
    exact hkeys
  apply sortKeys_eq_of_perm hleft
  rw [List.perm_ext_iff_of_nodup hleft.of_map hright.of_map]
  rintro ⟨key, w⟩
  simp only [List.mem_map, Prod.mk.injEq]
  constructor
  · rintro ⟨⟨key', w'⟩, hmem, he⟩
    cases he
    obtain ⟨f, hf, hw⟩ := (mem_rebuildFields).mp hmem
    obtain ⟨v, hv, hfv⟩ := Option.bind_eq_some_iff.mp hw
    have hmemv := (lookup_eq_some_iff hkeys).mp hv
    obtain ⟨g, u, hg, hu, hcanon⟩ := h _ hmemv
    have hfg : f = g := congrArg Prod.snd (List.inj_on_of_nodup_map hspec hf hg rfl)
    rw [← hfg, hfv] at hu
    cases hu
    exact ⟨_, hmemv, rfl, hcanon.symm⟩
  · rintro ⟨⟨key', v⟩, hmem, rfl, rfl⟩
    obtain ⟨g, u, hg, hu, hcanon⟩ := h _ hmem
    refine ⟨(key', u), (mem_rebuildFields).mpr ⟨g, hg, ?_⟩, ?_⟩
    · rw [(lookup_eq_some_iff hkeys).mpr hmem]
      exact hu
    · rw [Prod.map_apply, hcanon]
      rfl

end Layout

end Fabrika.Lib
