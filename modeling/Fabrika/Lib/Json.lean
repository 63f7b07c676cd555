/-
  Fabrika.Lib.Json — plain JSON values and the text `JSON.stringify` writes for them.

  A string is its list of UTF-16 code units, lone surrogates included, and an object its own
  entries in order. The numbers are a parameter: `Numeral` says what their text must be like.

  Proved:
  - `print_inj`: two values of one text are equal;
  - `canonicalText_eq_iff`: two values have one text with sorted keys exactly when they have
    one normal form;
  - `lookup_eq_of_normal_eq`: two objects of one normal form agree at each key.
-/

import Fabrika.Lib.Record
import Mathlib

namespace Fabrika.Lib

/-- A JavaScript string, as its code units. -/
abbrev Units := List Nat

/-- What a number's text is made of: digits, `-`, `+`, `.` and `e`. -/
def isNumeralUnit (u : Nat) : Bool := (0x30 ≤ u && u ≤ 0x39) || u == 0x2d || u == 0x2b || u == 0x2e || u == 0x65

class Numeral (N : Type) where
  text : N → Units
  text_ne_nil : ∀ n, text n ≠ []
  isNumeralUnit_of_mem : ∀ n, ∀ u ∈ text n, isNumeralUnit u = true
  text_inj : ∀ m n, text m = text n → m = n

inductive Json (N : Type)
  | null
  | bool (value : Bool)
  | num (value : N)
  | str (value : Units)
  | arr (items : List (Json N))
  | obj (fields : List (Units × Json N))

namespace Json

variable {N : Type}

/-- Induction over a value: of an array over its items, of an object over its fields' values. -/
theorem inductionOn {P : Json N → Prop} (null : P .null) (bool : ∀ b, P (.bool b)) (num : ∀ n, P (.num n)) (str : ∀ s, P (.str s))
    (arr : ∀ xs, (∀ x ∈ xs, P x) → P (.arr xs)) (obj : ∀ fs, (∀ f ∈ fs, P f.2) → P (.obj fs)) (v : Json N) : P v :=
  @Json.rec N P (fun xs => ∀ x ∈ xs, P x) (fun fs => ∀ f ∈ fs, P f.2) (fun f => P f.2) null bool num str arr obj (by simp)
    (fun x xs hx hxs => by simpa using ⟨hx, hxs⟩) (by simp)
    (fun f fs hf hfs => by
      intro g hg
      rcases List.mem_cons.mp hg with rfl | hg
      · exact hf
      · exact hfs g hg)
    (fun _ _ h => h) v

/-! ## Strings -/

def isHighSurrogate (u : Nat) : Bool := 0xD800 ≤ u && u ≤ 0xDBFF

def isLowSurrogate (u : Nat) : Bool := 0xDC00 ≤ u && u ≤ 0xDFFF

def hexDigit (d : Nat) : Nat := if d < 10 then 0x30 + d else 0x57 + d

def unicodeEscape (u : Nat) : Units :=
  [0x5c, 0x75, hexDigit (u / 4096 % 16), hexDigit (u / 256 % 16), hexDigit (u / 16 % 16), hexDigit (u % 16)]

/-- One code unit inside quotes; a surrogate here has no partner. -/
def escape (u : Nat) : Units :=
  if u = 0x22 then [0x5c, 0x22]
  else if u = 0x5c then [0x5c, 0x5c]
  else if u = 0x08 then [0x5c, 0x62]
  else if u = 0x09 then [0x5c, 0x74]
  else if u = 0x0a then [0x5c, 0x6e]
  else if u = 0x0c then [0x5c, 0x66]
  else if u = 0x0d then [0x5c, 0x72]
  else if u < 0x20 ∨ isHighSurrogate u ∨ isLowSurrogate u then unicodeEscape u
  else [u]

def quoteUnits : Units → Units
  | [] => []
  | [u] => escape u
  | u :: v :: rest =>
    if isHighSurrogate u && isLowSurrogate v then u :: v :: quoteUnits rest else escape u ++ quoteUnits (v :: rest)

def quote (s : Units) : Units := 0x22 :: (quoteUnits s ++ [0x22])

def unhex (u : Nat) : Nat := if u < 0x40 then u - 0x30 else u - 0x57

/-- What a quoted string says up to its closing quote, and what follows. -/
def unquote : Units → Option (Units × Units)
  | [] => none
  | 0x22 :: rest => some ([], rest)
  | 0x5c :: 0x75 :: a :: b :: c :: d :: rest =>
    (unquote rest).map fun read => ((((unhex a * 16 + unhex b) * 16 + unhex c) * 16 + unhex d) :: read.1, read.2)
  | 0x5c :: 0x62 :: rest => (unquote rest).map fun read => (0x08 :: read.1, read.2)
  | 0x5c :: 0x74 :: rest => (unquote rest).map fun read => (0x09 :: read.1, read.2)
  | 0x5c :: 0x6e :: rest => (unquote rest).map fun read => (0x0a :: read.1, read.2)
  | 0x5c :: 0x66 :: rest => (unquote rest).map fun read => (0x0c :: read.1, read.2)
  | 0x5c :: 0x72 :: rest => (unquote rest).map fun read => (0x0d :: read.1, read.2)
  | 0x5c :: u :: rest => (unquote rest).map fun read => (u :: read.1, read.2)
  | u :: rest => (unquote rest).map fun read => (u :: read.1, read.2)

theorem unhex_hexDigit {d : Nat} (h : d < 16) : unhex (hexDigit d) = d := by
  unfold unhex hexDigit
  split <;> split <;> omega

variable {u : Nat} {q r : Units} {α : Type} {v w : Json N} {fs gs : List (Units × Json N)}

theorem unquote_cons (hquote : u ≠ 0x22) (hslash : u ≠ 0x5c) (rest : Units) :
    unquote (u :: rest) = (unquote rest).map fun read => (u :: read.1, read.2) := by
  rw [unquote.eq_def]
  split <;> simp_all

theorem unquote_unicodeEscape (h : u < 0x10000) (rest : Units) :
    unquote (unicodeEscape u ++ rest) = (unquote rest).map fun read => (u :: read.1, read.2) := by
  have hu : ((u / 4096 % 16 * 16 + u / 256 % 16) * 16 + u / 16 % 16) * 16 + u % 16 = u := by omega
  simp only [unicodeEscape, List.cons_append, List.nil_append, unquote]
  rw [unhex_hexDigit (by omega), unhex_hexDigit (by omega), unhex_hexDigit (by omega), unhex_hexDigit (by omega), hu]

theorem unquote_escape (u : Nat) (rest : Units) :
    unquote (escape u ++ rest) = (unquote rest).map fun read => (u :: read.1, read.2) := by
  unfold escape
  split
  · subst u; simp [unquote]
  split
  · subst u; simp [unquote]
  split
  · subst u; simp [unquote]
  split
  · subst u; simp [unquote]
  split
  · subst u; simp [unquote]
  split
  · subst u; simp [unquote]
  split
  · subst u; simp [unquote]
  split
  · rename_i h
    apply unquote_unicodeEscape
    simp only [isHighSurrogate, isLowSurrogate, Bool.and_eq_true, decide_eq_true_eq] at h
    omega
  · exact unquote_cons ‹_› ‹_› rest

theorem unquote_surrogate (h : isHighSurrogate u = true ∨ isLowSurrogate u = true) (rest : Units) :
    unquote (u :: rest) = (unquote rest).map fun read => (u :: read.1, read.2) := by
  simp only [isHighSurrogate, isLowSurrogate, Bool.and_eq_true, decide_eq_true_eq] at h
  exact unquote_cons (by omega) (by omega) rest

theorem unquote_quoteUnits (s rest : Units) : unquote (quoteUnits s ++ 0x22 :: rest) = some (s, rest) := by
  fun_induction quoteUnits s with
  | case1 => simp [unquote]
  | case2 u => simp [unquote_escape, unquote]
  | case3 u v s hpair ih =>
    rw [Bool.and_eq_true] at hpair
    rw [List.cons_append, List.cons_append, unquote_surrogate (.inl hpair.1), unquote_surrogate (.inr hpair.2), ih]
    rfl
  | case4 u v s hpair ih =>
    rw [List.append_assoc, unquote_escape, ih]
    rfl

theorem quote_append_inj {s t r q : Units} (h : quote s ++ r = quote t ++ q) : s = t ∧ r = q := by
  have h := congrArg (fun text => unquote text.tail) h
  simpa [quote, unquote_quoteUnits] using h

/-! ## Printing -/

section
variable [Numeral N]

mutual
/-- `JSON.stringify`. -/
def print : Json N → Units
  | .null => codeUnits "null"
  | .bool true => codeUnits "true"
  | .bool false => codeUnits "false"
  | .num n => Numeral.text n
  | .str s => quote s
  | .arr [] => [0x5b, 0x5d]
  | .arr (x :: xs) => 0x5b :: (print x ++ printItems xs)
  | .obj [] => [0x7b, 0x7d]
  | .obj ((k, v) :: fs) => 0x7b :: (quote k ++ 0x3a :: (print v ++ printFields fs))
/-- The items after the first one, and the end of the array. -/
def printItems : List (Json N) → Units
  | [] => [0x5d]
  | x :: xs => 0x2c :: (print x ++ printItems xs)
/-- The fields after the first one, and the end of the object. -/
def printFields : List (Units × Json N) → Units
  | [] => [0x7d]
  | (k, v) :: fs => 0x2c :: (quote k ++ 0x3a :: (print v ++ printFields fs))
end

/-- Which constructor a value is of. -/
def kind : Json N → Nat
  | .null => 0
  | .bool _ => 1
  | .num _ => 2
  | .str _ => 3
  | .arr _ => 4
  | .obj _ => 5

/-- The same from the first code unit of its text; `6` starts no value. -/
def kindOfUnit (u : Nat) : Nat :=
  if u = 0x6e then 0
  else if u = 0x74 ∨ u = 0x66 then 1
  else if isNumeralUnit u then 2
  else if u = 0x22 then 3
  else if u = 0x5b then 4
  else if u = 0x7b then 5
  else 6

theorem kindOfUnit_of_numeral (h : isNumeralUnit u = true) : kindOfUnit u = 2 := by
  unfold kindOfUnit
  by_cases hn : u = 0x6e
  · subst hn
    exact absurd h (by decide)
  · by_cases hb : u = 0x74 ∨ u = 0x66
    · rcases hb with rfl | rfl
      · exact absurd h (by decide)
      · exact absurd h (by decide)
    · simp [hn, hb, h]

theorem print_head (v : Json N) : ∃ u rest, print v = u :: rest ∧ kindOfUnit u = v.kind := by
  cases v with
  | null => exact ⟨_, _, rfl, rfl⟩
  | bool b =>
    cases b with
    | true => exact ⟨_, _, rfl, rfl⟩
    | false => exact ⟨_, _, rfl, rfl⟩
  | num n =>
    obtain ⟨u, rest, h⟩ := List.exists_cons_of_ne_nil (Numeral.text_ne_nil n)
    refine ⟨u, rest, by rw [print, h], ?_⟩
    exact kindOfUnit_of_numeral (Numeral.isNumeralUnit_of_mem n u (by rw [h]; exact List.mem_cons_self))
  | str s => exact ⟨_, _, by rw [print, quote], rfl⟩
  | arr xs =>
    cases xs with
    | nil => exact ⟨_, _, by rw [print], rfl⟩
    | cons x xs => exact ⟨_, _, by rw [print], rfl⟩
  | obj fs =>
    cases fs with
    | nil => exact ⟨_, _, by rw [print], rfl⟩
    | cons f fs =>
      obtain ⟨k, v⟩ := f
      exact ⟨_, _, by rw [print], rfl⟩

theorem kind_eq_of_print_append (h : print v ++ r = print w ++ q) : v.kind = w.kind := by
  obtain ⟨a, rest, hv, ha⟩ := print_head v
  obtain ⟨b, rest', hw, hb⟩ := print_head w
  rw [hv, hw, List.cons_append, List.cons_append] at h
  rw [← ha, ← hb, (List.cons.inj h).1]

/-- What may follow a value: nothing that could continue a number. -/
def Ends (r : Units) : Prop := ∀ u ∈ r.head?, isNumeralUnit u = false

theorem Ends.cons {u : Nat} (h : isNumeralUnit u = false) (r : Units) : Ends (u :: r) := by
  intro x hx
  cases hx
  exact h

theorem ends_printItems (xs : List (Json N)) (r : Units) : Ends (printItems xs ++ r) := by
  cases xs with
  | nil => exact Ends.cons (by decide) _
  | cons x xs => exact Ends.cons (by decide) _

theorem ends_printFields (fs : List (Units × Json N)) (r : Units) : Ends (printFields fs ++ r) := by
  cases fs with
  | nil => exact Ends.cons (by decide) _
  | cons f fs =>
    obtain ⟨k, v⟩ := f
    exact Ends.cons (by decide) _

theorem numeral_append_inj {a b r q : Units} (ha : ∀ u ∈ a, isNumeralUnit u = true) (hb : ∀ u ∈ b, isNumeralUnit u = true)
    (hr : Ends r) (hq : Ends q) (h : a ++ r = b ++ q) : a = b ∧ r = q := by
  have htake : ∀ {c s : Units}, (∀ u ∈ c, isNumeralUnit u = true) → Ends s → (c ++ s).takeWhile isNumeralUnit = c := by
    intro c s hc hs
    rw [List.takeWhile_append_of_pos hc]
    cases s with
    | nil => simp
    | cons u s => simp [hs u rfl]
  have hab : a = b := by rw [← htake ha hr, h, htake hb hq]
  subst hab
  exact ⟨rfl, List.append_cancel_left h⟩

/-- A value's text, followed by something that continues no number, is read in one way. -/
def Reads (v : Json N) : Prop := ∀ w r q, Ends r → Ends q → print v ++ r = print w ++ q → v = w ∧ r = q

theorem printItems_append_inj {xs ys : List (Json N)} (hxs : ∀ x ∈ xs, Reads x) (h : printItems xs ++ r = printItems ys ++ q) :
    xs = ys ∧ r = q := by
  induction xs generalizing ys with
  | nil =>
    cases ys with
    | nil => simpa [printItems] using h
    | cons y ys => simp [printItems] at h
  | cons x xs ih =>
    cases ys with
    | nil => simp [printItems] at h
    | cons y ys =>
      simp only [printItems, List.cons_append, List.append_assoc, List.cons.injEq, true_and] at h
      obtain ⟨rfl, htail⟩ := hxs x List.mem_cons_self y _ _ (ends_printItems xs r) (ends_printItems ys q) h
      obtain ⟨rfl, rfl⟩ := ih (fun x hx => hxs x (List.mem_cons_of_mem _ hx)) htail
      exact ⟨rfl, rfl⟩

theorem printFields_append_inj (hfs : ∀ f ∈ fs, Reads f.2) (h : printFields fs ++ r = printFields gs ++ q) : fs = gs ∧ r = q := by
  induction fs generalizing gs with
  | nil =>
    cases gs with
    | nil => simpa [printFields] using h
    | cons g gs => simp [printFields] at h
  | cons f fs ih =>
    cases gs with
    | nil => simp [printFields] at h
    | cons g gs =>
      simp only [printFields, List.cons_append, List.append_assoc, List.cons.injEq, true_and] at h
      obtain ⟨hkey, h⟩ := quote_append_inj h
      obtain ⟨hvalue, htail⟩ :=
        hfs f List.mem_cons_self g.2 _ _ (ends_printFields fs r) (ends_printFields gs q) (List.cons.inj h).2
      obtain ⟨rfl, rfl⟩ := ih (fun f hf => hfs f (List.mem_cons_of_mem _ hf)) htail
      rw [Prod.ext hkey hvalue]
      exact ⟨rfl, rfl⟩

theorem reads_arr {xs : List (Json N)} (hxs : ∀ x ∈ xs, Reads x) : Reads (.arr xs) := by
  intro w r q hr hq h
  cases w with
  | arr ys =>
    cases xs with
    | nil =>
      cases ys with
      | nil => simpa [print] using h
      | cons y ys =>
        -- No value starts with the end of an array.
        obtain ⟨u, rest, hy, hu⟩ := print_head y
        simp only [print, hy, List.cons_append, List.cons.injEq, true_and] at h
        rw [← h.1] at hu
        cases y <;> cases hu
    | cons x xs =>
      cases ys with
      | nil =>
        obtain ⟨u, rest, hx, hu⟩ := print_head x
        simp only [print, hx, List.cons_append, List.cons.injEq, true_and] at h
        rw [h.1] at hu
        cases x <;> cases hu
      | cons y ys =>
        have hitems : printItems (x :: xs) ++ r = printItems (y :: ys) ++ q := by
          simpa [print, printItems] using h
        obtain ⟨hys, hrq⟩ := printItems_append_inj hxs hitems
        rw [hys]
        exact ⟨rfl, hrq⟩
  | _ => cases kind_eq_of_print_append h

theorem reads_obj (hfs : ∀ f ∈ fs, Reads f.2) : Reads (.obj fs) := by
  intro w r q hr hq h
  cases w with
  | obj gs =>
    cases fs with
    | nil =>
      cases gs with
      | nil => simpa [print] using h
      | cons g gs => simp [print, quote] at h
    | cons f fs =>
      cases gs with
      | nil => simp [print, quote] at h
      | cons g gs =>
        have hfields : printFields (f :: fs) ++ r = printFields (g :: gs) ++ q := by
          simpa [print, printFields] using h
        obtain ⟨hgs, hrq⟩ := printFields_append_inj hfs hfields
        rw [hgs]
        exact ⟨rfl, hrq⟩
  | _ => cases kind_eq_of_print_append h

theorem reads (v : Json N) : Reads v := by
  induction v using inductionOn with
  | null =>
    intro w r q hr hq h
    cases w with
    | null => exact ⟨rfl, List.append_cancel_left h⟩
    | _ => cases kind_eq_of_print_append h
  | bool b =>
    intro w r q hr hq h
    cases w with
    | bool c =>
      cases b <;> cases c <;> simp_all [print, codeUnits]
    | _ => cases kind_eq_of_print_append h
  | num n =>
    intro w r q hr hq h
    cases w with
    | num m =>
      obtain ⟨hnm, hrq⟩ :=
        numeral_append_inj (Numeral.isNumeralUnit_of_mem n) (Numeral.isNumeralUnit_of_mem m) hr hq h
      rw [Numeral.text_inj n m hnm]
      exact ⟨rfl, hrq⟩
    | _ => cases kind_eq_of_print_append h
  | str s =>
    intro w r q hr hq h
    cases w with
    | str t =>
      obtain ⟨rfl, hrq⟩ := quote_append_inj h
      exact ⟨rfl, hrq⟩
    | _ => cases kind_eq_of_print_append h
  | arr xs ih => exact reads_arr ih
  | obj fs ih => exact reads_obj ih

theorem print_inj (h : print v = print w) : v = w :=
  (reads v w [] [] (by simp [Ends]) (by simp [Ends]) (by rw [h])).1

end

/-! ## Key order -/

def isDigit (u : Nat) : Bool := 0x30 ≤ u && u ≤ 0x39

def decimal (digits : Units) : Nat := digits.foldl (fun n u => n * 10 + (u - 0x30)) 0

/-- The number a key names when it is an array index in its canonical spelling. -/
def arrayIndex (key : Units) : Option Nat :=
  if key ≠ [] ∧ key.all isDigit ∧ (key = [0x30] ∨ key.head? ≠ some 0x30) ∧
    decimal key < 2 ^ 32 - 1 then some (decimal key) else none

/-- The order an object keeps its own entries in: array indices first, ascending, then the
    others as they were created. -/
def ownOrder {α : Type} (fields : List (Units × α)) : List (Units × α) :=
  sortOn (fun field => (arrayIndex field.1).getD 0) (fields.filter fun field => (arrayIndex field.1).isSome)
    ++ fields.filter fun field => !(arrayIndex field.1).isSome

/-- `Object.fromEntries(Object.entries(value).sort(([a], [b]) => compare(a, b)))`. -/
def sortKeys {α : Type} (fields : List (Units × α)) : List (Units × α) := ownOrder (sortOn Prod.fst fields)

theorem ownOrder_perm (fields : List (Units × α)) : (ownOrder fields).Perm fields :=
  ((sortOn_perm _ _).append_right _).trans (List.filter_append_perm _ _)

theorem sortKeys_perm (fields : List (Units × α)) : (sortKeys fields).Perm fields :=
  (ownOrder_perm _).trans (sortOn_perm _ _)

theorem sortKeys_eq_of_perm {fields others : List (Units × α)} (hkeys : (fields.map Prod.fst).Nodup) (h : fields.Perm others) :
    sortKeys fields = sortKeys others := by
  rw [sortKeys, sortKeys, sortOn_eq_of_perm (fun _ ha _ hb => List.inj_on_of_nodup_map hkeys ha hb) h]

mutual
/-- The value with the keys of every object in it sorted. -/
def normal : Json N → Json N
  | .null => .null
  | .bool b => .bool b
  | .num n => .num n
  | .str s => .str s
  | .arr xs => .arr (normalItems xs)
  | .obj fs => .obj (sortKeys (normalFields fs))
def normalItems : List (Json N) → List (Json N)
  | [] => []
  | x :: xs => normal x :: normalItems xs
def normalFields : List (Units × Json N) → List (Units × Json N)
  | [] => []
  | (k, v) :: fs => (k, normal v) :: normalFields fs
end

theorem normalItems_eq (xs : List (Json N)) : normalItems xs = xs.map normal := by
  induction xs with
  | nil => rfl
  | cons x xs ih => rw [normalItems, ih, List.map_cons]

theorem normalFields_eq (fs : List (Units × Json N)) : normalFields fs = fs.map (Prod.map id normal) := by
  induction fs with
  | nil => rfl
  | cons f fs ih =>
    obtain ⟨k, v⟩ := f
    rw [normalFields, ih, List.map_cons]
    rfl

@[simp] theorem normal_arr (xs : List (Json N)) : normal (.arr xs) = .arr (xs.map normal) := by
  rw [normal, normalItems_eq]

@[simp] theorem normal_obj (fs : List (Units × Json N)) : normal (.obj fs) = .obj (sortKeys (fs.map (Prod.map id normal))) := by
  rw [normal, normalFields_eq]

/-- `JSON.stringify(value, sortKeys)`. -/
def canonicalText [Numeral N] (v : Json N) : Units := print (normal v)

theorem canonicalText_eq_iff [Numeral N] : canonicalText v = canonicalText w ↔ normal v = normal w :=
  ⟨print_inj, fun h => by rw [canonicalText, h, canonicalText]⟩

theorem fields_perm_of_normal_eq (h : normal (.obj fs) = normal (.obj gs)) :
    (fs.map (Prod.map id normal)).Perm (gs.map (Prod.map id normal)) := by
  rw [normal_obj, normal_obj] at h
  have h := Json.obj.inj h
  exact (sortKeys_perm _).symm.trans (h ▸ sortKeys_perm _)

theorem lookup_eq_some_iff {fields : List (Units × α)} (hkeys : (fields.map Prod.fst).Nodup) {key : Units} {value : α} :
    fields.lookup key = some value ↔ (key, value) ∈ fields := by
  induction fields with
  | nil => simp
  | cons field rest ih =>
    obtain ⟨name, first⟩ := field
    simp only [List.map_cons, List.nodup_cons] at hkeys
    by_cases hk : key = name
    · subst hk
      have hrest : (key, value) ∉ rest := fun hmem => hkeys.1 (List.mem_map_of_mem hmem)
      simp [hrest, eq_comm]
    · rw [List.lookup_cons, beq_eq_false_iff_ne.mpr hk, ih hkeys.2]
      simp [hk]

theorem lookup_map_normal (fields : List (Units × Json N)) (key : Units) :
    (fields.map (Prod.map id normal)).lookup key = (fields.lookup key).map normal := by
  induction fields with
  | nil => rfl
  | cons field rest ih =>
    obtain ⟨name, value⟩ := field
    simp only [List.map_cons, Prod.map_apply, id, List.lookup_cons]
    cases key == name with
    | true => rfl
    | false => exact ih

theorem keys_map_normal (fields : List (Units × Json N)) :
    (fields.map (Prod.map id normal)).map Prod.fst = fields.map Prod.fst := by
  rw [List.map_map]
  rfl

/-- Two objects of one normal form hold values of one normal form at each key. -/
theorem lookup_eq_of_normal_eq (hfs : (fs.map Prod.fst).Nodup) (hgs : (gs.map Prod.fst).Nodup)
    (h : normal (.obj fs) = normal (.obj gs)) (key : Units) : (fs.lookup key).map normal = (gs.lookup key).map normal := by
  have hperm := fields_perm_of_normal_eq h
  rw [← lookup_map_normal, ← lookup_map_normal]
  apply Option.ext
  intro value
  rw [lookup_eq_some_iff (by rw [keys_map_normal]; exact hfs), lookup_eq_some_iff (by rw [keys_map_normal]; exact hgs),
    hperm.mem_iff]

/-! ## Values of a program's own names -/

def text (s : String) : Json N := .str (codeUnits s)

/-- Entries under the code units of their names. -/
def names {α : Type} (entries : List (String × α)) : List (Units × α) := entries.map fun entry => (codeUnits entry.1, entry.2)

def object (fields : List (String × Json N)) : Json N := .obj (names fields)

/-- A field that is written only when it has a value. -/
def present (name : String) (value : Option (Json N)) : List (String × Json N) := value.toList.map fun value => (name, value)

@[simp] theorem normal_text_inj {s t : String} : normal (text s : Json N) = normal (text t) ↔ s = t := by
  simp only [text, normal, Json.str.injEq]
  exact codeUnits_injective.eq_iff

theorem lookup_names (entries : List (String × α)) (name : String) :
    (names entries).lookup (codeUnits name) = entries.lookup name := by
  induction entries with
  | nil => rfl
  | cons entry rest ih =>
    obtain ⟨other, value⟩ := entry
    simp only [names, List.map_cons, List.lookup_cons] at ih ⊢
    by_cases h : name = other
    · simp [h]
    · have hunits : codeUnits name ≠ codeUnits other := fun hu => h (codeUnits_injective hu)
      rw [beq_eq_false_iff_ne.mpr h, beq_eq_false_iff_ne.mpr hunits]
      exact ih

theorem mem_names {entries : List (String × α)} {key : Units} {value : α} :
    (key, value) ∈ names entries ↔ ∃ name, codeUnits name = key ∧ (name, value) ∈ entries := by
  simp only [names, List.mem_map, Prod.mk.injEq]
  constructor
  · rintro ⟨⟨name, other⟩, hmem, rfl, rfl⟩
    exact ⟨name, rfl, hmem⟩
  · rintro ⟨name, rfl, hmem⟩
    exact ⟨(name, value), hmem, rfl, rfl⟩

theorem nodup_names {entries : List (String × α)} (h : (entries.map Prod.fst).Nodup) :
    ((names entries).map Prod.fst).Nodup := by
  have hmap := h.map codeUnits_injective
  simp only [names, List.map_map] at hmap ⊢
  exact hmap

@[simp] theorem lookup_present (name key : String) (value : Option (Json N)) :
    (present name value).lookup key = if key = name then value else none := by
  cases value with
  | none => simp [present]
  | some value =>
    by_cases h : key = name
    · simp [present, h]
    · simp [present, h, List.lookup_cons, beq_eq_false_iff_ne.mpr h]

theorem object_lookup_eq {fs gs : List (String × Json N)} (hfs : (fs.map Prod.fst).Nodup) (hgs : (gs.map Prod.fst).Nodup)
    (h : normal (object fs) = normal (object gs)) (name : String) :
    (fs.lookup name).map normal = (gs.lookup name).map normal := by
  have hlookup := lookup_eq_of_normal_eq (nodup_names hfs) (nodup_names hgs) h (codeUnits name)
  rwa [lookup_names, lookup_names] at hlookup

theorem isDigit_of_mem_toDigits {n u : Nat} (hu : u ∈ (Nat.toDigits 10 n).map Char.toNat) : isDigit u = true := by
  obtain ⟨c, hc, rfl⟩ := List.mem_map.mp hu
  have hdigit := Nat.isDigit_of_mem_toDigits (by decide) (by decide) hc
  simp only [Char.isDigit, Bool.and_eq_true, decide_eq_true_eq] at hdigit
  have hlow : 0x30 ≤ c.toNat := hdigit.1
  have hhigh : c.toNat ≤ 0x39 := hdigit.2
  simp [isDigit, hlow, hhigh]

end Json

/-- A natural number below `10^21`, which JavaScript writes in plain decimal. -/
instance : Numeral Nat where
  text n := (Nat.toDigits 10 n).map Char.toNat
  text_ne_nil n := by simp
  isNumeralUnit_of_mem n u hu := by
    have hdigit := Json.isDigit_of_mem_toDigits hu
    rw [isNumeralUnit, show (0x30 ≤ u && u ≤ 0x39) = true from hdigit]
    rfl
  text_inj m n h := by
    have hchars := List.map_injective_iff.mpr (fun a b hab => Char.toNat_inj.mp hab) h
    rw [← Nat.ofDigitChars_ten_toDigits (n := m), hchars, Nat.ofDigitChars_ten_toDigits]

end Fabrika.Lib
