/-
  Fabrika.Lib.Text — the string operations of JavaScript the platform's code uses, over
  Lean strings.

  A string is read as its list of characters. No operation here looks inside a surrogate
  pair, so characters stand for code units throughout. `split` answers at least one part;
  `decodeURIComponent` is `none` exactly where the built-in throws.
-/

import Mathlib.Data.List.Basic
import Mathlib.Data.List.DropRight
import Mathlib.Data.List.Infix

namespace Fabrika.Lib.Text

/-! ## Prefixes, suffixes and membership -/

def startsWith (s start : String) : Bool := start.toList.isPrefixOf s.toList

def endsWith (s tail : String) : Bool := tail.toList.isSuffixOf s.toList

def includesChar (s : String) (c : Char) : Bool := s.toList.contains c

/-- `s.includes(part)`: some suffix of `s` starts with `part`. -/
def includes (s part : String) : Bool := s.toList.tails.any part.toList.isPrefixOf

variable {sep : Char} {text : List Char} {α : Type} {c : α} {p : α → Bool}

variable {s : String}

@[simp] theorem startsWith_iff {start : String} : startsWith s start = true ↔ start.toList <+: s.toList :=
  List.isPrefixOf_iff_prefix

@[simp] theorem endsWith_iff {tail : String} : endsWith s tail = true ↔ tail.toList <:+ s.toList :=
  List.isSuffixOf_iff_suffix

/-! ## Splitting at a separator -/

def splitChars (sep : Char) : List Char → List (List Char)
  | [] => [[]]
  | c :: rest =>
    if c = sep then [] :: splitChars sep rest
    else match splitChars sep rest with
      | [] => [[c]]
      | part :: parts => (c :: part) :: parts

/-- `s.split(sep)` for a separator of one character. -/
def split (s : String) (sep : Char) : List String := (splitChars sep s.toList).map String.ofList

theorem splitChars_ne_nil (sep : Char) (cs : List Char) : splitChars sep cs ≠ [] := by
  cases cs with
  | nil => simp [splitChars]
  | cons c rest =>
    simp only [splitChars]
    split
    · simp
    · split <;> simp

theorem splitChars_eq (sep : Char) (cs : List Char) : splitChars sep cs = cs.splitOn sep := by
  induction cs with
  | nil => rfl
  | cons c rest ih =>
    rw [List.splitOn_cons_eq_if_modifyHead, ← ih, splitChars]
    by_cases hc : c = sep
    · simp [hc]
    · have hne := splitChars_ne_nil sep rest
      cases hs : splitChars sep rest with
      | nil => exact absurd hs hne
      | cons part parts => simp [hc]

/-- Texts that hold no separator, joined, split into what they are. -/
theorem splitChars_join {sep : Char} {parts : List (List Char)} (hne : parts ≠ []) (hparts : ∀ part ∈ parts, sep ∉ part) :
    splitChars sep ([sep].intercalate parts) = parts := by
  rw [splitChars_eq]
  exact List.splitOn_intercalate sep hparts hne

theorem join_splitChars (sep : Char) (text : List Char) : [sep].intercalate (splitChars sep text) = text := by
  rw [splitChars_eq]
  exact List.intercalate_splitOn sep

theorem splitChars_of_not_mem (h : sep ∉ text) : splitChars sep text = [text] := by
  have hjoin := @splitChars_join sep [text] (by simp) (by simpa using h)
  rwa [List.intercalate_singleton] at hjoin

theorem splitChars_append (h : sep ∉ text) (rest : List Char) :
    splitChars sep (text ++ sep :: rest) = text :: splitChars sep rest := by
  rw [splitChars_eq, splitChars_eq, List.splitOn_append_cons_self, ← splitChars_eq sep text, splitChars_of_not_mem h]
  rfl

theorem split_append (a b : List Char) (sep : Char) :
    split (String.ofList (a ++ sep :: b)) sep = split (String.ofList a) sep ++ split (String.ofList b) sep := by
  simp [split, splitChars_eq, List.splitOn_append_cons_self]

theorem not_mem_of_mem_split {part : String} (h : part ∈ split s sep) : sep ∉ part.toList := by
  obtain ⟨cs, hcs, rfl⟩ := List.mem_map.mp h
  rw [String.toList_ofList]
  generalize s.toList = chars at hcs
  clear h
  induction chars generalizing cs with
  | nil =>
    simp only [splitChars, List.mem_singleton] at hcs
    simp [hcs]
  | cons c rest ih =>
    simp only [splitChars] at hcs
    split at hcs
    · rcases List.mem_cons.mp hcs with rfl | hcs
      · simp
      · exact ih cs hcs
    · rename_i hc
      split at hcs
      · rw [List.mem_singleton.mp hcs]
        simpa using Ne.symm hc
      · rename_i part parts hs
        rcases List.mem_cons.mp hcs with rfl | hcs
        · have hpart := ih part (by rw [hs]; exact List.mem_cons_self)
          simpa [hpart] using Ne.symm hc
        · exact ih cs (by rw [hs]; exact List.mem_cons_of_mem _ hcs)

/-- What is split is its parts joined. -/
theorem join_split (s : String) (sep : Char) : (String.singleton sep).intercalate (split s sep) = s := by
  apply String.toList_inj.mp
  rw [String.toList_intercalate, split, List.map_map]
  have hid : String.toList ∘ String.ofList = id := by
    funext cs
    simp
  rw [hid, List.map_id, splitChars_eq, String.toList_singleton, List.intercalate_splitOn]

theorem split_join {parts : List String} (hne : parts ≠ []) (hparts : ∀ part ∈ parts, sep ∉ part.toList) :
    split ((String.singleton sep).intercalate parts) sep = parts := by
  rw [split, splitChars_eq, String.toList_intercalate, String.toList_singleton, List.splitOn_intercalate]
  · rw [List.map_map]
    have hid : String.ofList ∘ String.toList = id := by
      funext s
      simp
    rw [hid, List.map_id]
  · intro cs hcs
    obtain ⟨part, hpart, rfl⟩ := List.mem_map.mp hcs
    exact hparts part hpart
  · simpa using hne

theorem infix_intercalate (sep : List α) {part : List α} {parts : List (List α)} (h : part ∈ parts) :
    part <:+: sep.intercalate parts := by
  induction parts with
  | nil => cases h
  | cons first rest ih =>
    by_cases hrest : rest = []
    · subst hrest
      rw [List.mem_singleton.mp h, List.intercalate_singleton]
    · rw [List.intercalate_cons_of_ne_nil hrest]
      rcases List.mem_cons.mp h with rfl | h
      · rw [List.append_assoc]
        exact (List.prefix_append _ _).isInfix
      · exact (ih h).trans (List.suffix_append _ _).isInfix

theorem infix_of_mem_split {part : String} (h : part ∈ split s sep) : part.toList <:+: s.toList := by
  obtain ⟨a, b, hab⟩ := List.append_of_mem h
  have hjoin := congrArg String.toList (join_split s sep)
  rw [hab, String.toList_intercalate, List.map_append, List.map_cons] at hjoin
  rw [← hjoin]
  exact infix_intercalate _ (List.mem_append_right _ List.mem_cons_self)

/-- A list is cut at its first separator in one way. -/
theorem cut_first_inj {sep : α} {a b c d : List α} (h : a ++ sep :: b = c ++ sep :: d) (ha : sep ∉ a) (hc : sep ∉ c) :
    a = c ∧ b = d := by
  induction a generalizing c with
  | nil =>
    cases c with
    | nil => exact ⟨rfl, (List.cons.inj h).2⟩
    | cons x c => exact absurd (List.cons.inj h).1 (by rintro rfl; exact hc List.mem_cons_self)
  | cons x a ih =>
    cases c with
    | nil => exact absurd (List.cons.inj h).1 (by rintro rfl; exact ha List.mem_cons_self)
    | cons y c =>
      obtain ⟨rfl, htail⟩ := List.cons.inj h
      obtain ⟨rfl, rfl⟩ := ih htail (fun hm => ha (List.mem_cons_of_mem _ hm)) (fun hm => hc (List.mem_cons_of_mem _ hm))
      exact ⟨rfl, rfl⟩

/-- A list is cut at its last separator in one way. -/
theorem cut_last_inj {sep : α} {a b c d : List α} (h : a ++ sep :: b = c ++ sep :: d) (hb : sep ∉ b) (hd : sep ∉ d) :
    a = c ∧ b = d := by
  have hrev : b.reverse ++ sep :: a.reverse = d.reverse ++ sep :: c.reverse := by
    simpa using congrArg List.reverse h
  obtain ⟨hbd, hac⟩ := cut_first_inj hrev (by simpa using hb) (by simpa using hd)
  exact ⟨List.reverse_inj.mp hac, List.reverse_inj.mp hbd⟩

/-! ## White space and case -/

/-- The characters of the regular expression class for white space, which `trim` removes. -/
def isSpace (c : Char) : Bool :=
  let n := c.toNat
  (0x09 ≤ n && n ≤ 0x0D) || n == 0x20 || n == 0xA0 || n == 0x1680 || (0x2000 ≤ n && n ≤ 0x200A) || n == 0x2028 ||
    n == 0x2029 || n == 0x202F || n == 0x205F || n == 0x3000 || n == 0xFEFF

def isLineTerminator (c : Char) : Bool :=
  let n := c.toNat
  n == 0x0A || n == 0x0D || n == 0x2028 || n == 0x2029

def trimChars (cs : List Char) : List Char := ((cs.dropWhile isSpace).reverse.dropWhile isSpace).reverse

def trim (s : String) : String := String.ofList (trimChars s.toList)

/-- Of a character of a header value, which is never past Latin-1. -/
def lowerChar (c : Char) : Char :=
  let n := c.toNat
  if (0x41 ≤ n && n ≤ 0x5A) || (0xC0 ≤ n && n ≤ 0xDE && n != 0xD7) then Char.ofNat (n + 32) else c

def toLowerCase (s : String) : String := String.ofList (s.toList.map lowerChar)

/-- The text before the first `c` and the text after it. -/
def cut (c : Char) : List Char → Option (List Char × List Char)
  | [] => none
  | d :: rest => if d = c then some ([], rest) else (cut c rest).map fun (before, after) => (d :: before, after)

theorem map_lower_eq (h : ∀ c ∈ text, lowerChar c = c) : text.map lowerChar = text := by
  conv_rhs => rw [← List.map_id text]
  exact List.map_congr_left h

theorem mem_of_mem_trimChars {c : Char} {cs : List Char} (h : c ∈ trimChars cs) : c ∈ cs := by
  have hreverse := (List.dropWhile_sublist isSpace).subset (List.mem_reverse.mp h)
  exact (List.dropWhile_sublist isSpace).subset (List.mem_reverse.mp hreverse)

theorem cut_eq_some {cs before after : List Char} (h : cut sep cs = some (before, after)) : cs = before ++ sep :: after := by
  induction cs generalizing before after with
  | nil => cases h
  | cons c rest ih =>
    simp only [cut] at h
    split at h
    · next hc =>
      cases h
      rw [hc, List.nil_append]
    · cases hrest : cut sep rest with
      | none => simp [hrest] at h
      | some parts =>
        simp only [hrest, Option.map_some, Option.some.injEq, Prod.mk.injEq] at h
        obtain ⟨rfl, rfl⟩ := h
        rw [ih hrest, List.cons_append]

/-! ## Taking what a test holds of off both ends -/

def strip {α : Type} (p : α → Bool) (cs : List α) : List α := (cs.dropWhile p).rdropWhile p

theorem trimChars_eq (cs : List Char) : trimChars cs = strip isSpace cs := rfl

/-- What a strip takes away is at the two ends, and the test holds of all of it. -/
theorem strip_eq_middle (p : α → Bool) (cs : List α) :
    ∃ front back, cs = front ++ strip p cs ++ back ∧ (∀ c ∈ front, p c = true) ∧ ∀ c ∈ back, p c = true := by
  refine ⟨cs.takeWhile p, (cs.dropWhile p).rtakeWhile p, ?_, fun c hc => List.mem_takeWhile_imp hc,
    fun c hc => List.mem_rtakeWhile_imp hc⟩
  rw [strip, List.append_assoc, List.rdropWhile_append_rtakeWhile, List.takeWhile_append_dropWhile]

theorem mem_of_mem_strip {cs : List α} (h : c ∈ strip p cs) : c ∈ cs := by
  obtain ⟨front, back, heq, -, -⟩ := strip_eq_middle p cs
  rw [heq]
  exact List.mem_append_left _ (List.mem_append_right _ h)

theorem strip_cons (hc : p c = true) (cs : List α) : strip p (c :: cs) = strip p cs := by
  rw [strip, List.dropWhile_cons_of_pos hc, strip]

theorem strip_concat (hc : p c = true) (cs : List α) : strip p (cs ++ [c]) = strip p cs := by
  rw [strip, List.dropWhile_append, strip]
  by_cases hall : (cs.dropWhile p).isEmpty = true
  · rw [if_pos hall, List.dropWhile_cons_of_pos hc, List.isEmpty_iff.mp hall, List.dropWhile_nil]
  · rw [if_neg hall, List.rdropWhile_concat_pos p _ c hc]

theorem strip_append {α : Type} {p : α → Bool} {front back : List α} (hfront : ∀ c ∈ front, p c = true)
    (hback : ∀ c ∈ back, p c = true) (cs : List α) : strip p (front ++ cs ++ back) = strip p cs := by
  have hleft : strip p (front ++ cs) = strip p cs := by rw [strip, List.dropWhile_append_of_pos hfront, strip]
  rw [← hleft]
  generalize front ++ cs = text
  induction back using List.reverseRecOn with
  | nil => rw [List.append_nil]
  | append_singleton back c ih =>
    rw [← List.append_assoc, strip_concat (hback c (List.mem_append_right _ List.mem_cons_self))]
    exact ih fun d hd => hback d (List.mem_append_left _ hd)

/-- A strip of more forgets a strip of less. -/
theorem strip_strip {q : α → Bool} (hpq : ∀ c, p c = true → q c = true) (cs : List α) : strip q (strip p cs) = strip q cs := by
  obtain ⟨front, back, heq, hfront, hback⟩ := strip_eq_middle p cs
  have happend := strip_append (fun c hc => hpq c (hfront c hc)) (fun c hc => hpq c (hback c hc)) (strip p cs)
  rw [← heq] at happend
  exact happend.symm

theorem strip_eq_self {first last : α} (hfirst : p first = false) (hlast : p last = false) (middle : List α) :
    strip p (first :: (middle ++ [last])) = first :: (middle ++ [last]) := by
  rw [strip, List.dropWhile_cons_of_neg (by rw [hfirst]; simp), ← List.cons_append,
    List.rdropWhile_concat_neg p _ last (by rw [hlast]; simp)]

theorem strip_eq_self_of_forall {cs : List α} (h : ∀ c ∈ cs, p c = false) : strip p cs = cs := by
  obtain ⟨front, back, heq, hfront, hback⟩ := strip_eq_middle p cs
  have hnil : ∀ part : List α, (∀ c ∈ part, p c = true) → part ⊆ cs → part = [] := by
    intro part hpart hsub
    refine List.eq_nil_iff_forall_not_mem.mpr fun c hc => ?_
    have htrue := hpart c hc
    rw [h c (hsub hc)] at htrue
    cases htrue
  have hfront' : front = [] := by
    refine hnil front hfront fun c hc => ?_
    rw [heq]
    exact List.mem_append_left _ (List.mem_append_left _ hc)
  have hback' : back = [] := by
    refine hnil back hback fun c hc => ?_
    rw [heq]
    exact List.mem_append_right _ hc
  rw [hfront', hback', List.append_nil, List.nil_append] at heq
  exact heq.symm

theorem cut_eq_none {cs : List Char} : cut sep cs = none ↔ sep ∉ cs := by
  induction cs with
  | nil => simp [cut]
  | cons c rest ih =>
    by_cases hc : c = sep
    · simp [cut, hc]
    · simp [cut, hc, ih, Ne.symm hc]

theorem cut_append {before : List Char} (hbefore : sep ∉ before) (after : List Char) :
    cut sep (before ++ sep :: after) = some (before, after) := by
  induction before with
  | nil => simp [cut]
  | cons c rest ih =>
    obtain ⟨hc, hrest⟩ := List.ne_and_not_mem_of_not_mem_cons hbefore
    simp [cut, Ne.symm hc, ih hrest]

theorem not_mem_of_cut {cs before after : List Char} (h : cut sep cs = some (before, after)) : sep ∉ before := by
  induction cs generalizing before after with
  | nil => cases h
  | cons c rest ih =>
    simp only [cut] at h
    split at h
    · cases h
      exact List.not_mem_nil
    · next hc =>
      cases hrest : cut sep rest with
      | none => simp [hrest] at h
      | some parts =>
        simp only [hrest, Option.map_some, Option.some.injEq, Prod.mk.injEq] at h
        obtain ⟨rfl, rfl⟩ := h
        exact List.not_mem_cons_of_ne_of_not_mem (Ne.symm hc) (ih hrest)

/-- Trimming a text first does not move its first separator: the two halves trim alike. -/
theorem cut_trimChars (hsep : isSpace sep = false) (cs : List Char) :
    (cut sep (trimChars cs)).map (Prod.map trimChars trimChars) = (cut sep cs).map (Prod.map trimChars trimChars) := by
  obtain ⟨front, back, heq, hfront, hback⟩ := strip_eq_middle isSpace cs
  have houtside : ∀ part : List Char, (∀ c ∈ part, isSpace c = true) → sep ∉ part := fun part hpart hmem =>
    absurd (hpart sep hmem) (by simp [hsep])
  cases hcut : cut sep (trimChars cs) with
  | none =>
    have hnone : cut sep cs = none := by
      rw [cut_eq_none] at hcut ⊢
      rw [heq, List.mem_append, List.mem_append]
      rintro ((h | h) | h)
      · exact houtside front hfront h
      · exact hcut h
      · exact houtside back hback h
    rw [hnone]
  | some parts =>
    obtain ⟨before, after⟩ := parts
    have hbefore : sep ∉ front ++ before := by
      rw [List.mem_append]
      exact fun h => h.elim (houtside front hfront) (not_mem_of_cut hcut)
    have hwhole : cs = (front ++ before) ++ sep :: (after ++ back) := by
      conv_lhs => rw [heq, ← trimChars_eq, cut_eq_some hcut]
      simp
    rw [hwhole, cut_append hbefore]
    have hstart := @strip_append Char isSpace front [] hfront (by simp) before
    have hend := @strip_append Char isSpace [] back (by simp) hback after
    rw [List.append_nil] at hstart
    rw [List.nil_append] at hend
    simp only [Option.map_some, Prod.map_apply, trimChars_eq, hstart, hend]

/-! ## Percent-decoding -/

/-- `[0-9a-f]`. -/
def isHexDigit (c : Char) : Bool := ('0' ≤ c && c ≤ '9') || ('a' ≤ c && c ≤ 'f')

def hexDigit (c : Char) : Option Nat :=
  if '0' ≤ c ∧ c ≤ '9' then some (c.toNat - '0'.toNat)
  else if 'a' ≤ c ∧ c ≤ 'f' then some (c.toNat - 'a'.toNat + 10)
  else if 'A' ≤ c ∧ c ≤ 'F' then some (c.toNat - 'A'.toNat + 10)
  else none

/-- The octet of a leading `%XX`, and the text after it. -/
def escapedOctet : List Char → Option (Nat × List Char)
  | '%' :: a :: b :: rest => do
    let high ← hexDigit a
    let low ← hexDigit b
    return (16 * high + low, rest)
  | _ => none

/-- Of a UTF-8 sequence's first octet: how many follow, its payload, and the least code
    point a sequence of that length may spell. -/
def leadOctet (octet : Nat) : Option (Nat × Nat × Nat) :=
  if octet < 0x80 then some (0, octet, 0)
  else if octet < 0xC0 then none
  else if octet < 0xE0 then some (1, octet % 0x20, 0x80)
  else if octet < 0xF0 then some (2, octet % 0x10, 0x800)
  else if octet < 0xF8 then some (3, octet % 0x08, 0x10000)
  else none

def continuationOctets : Nat → Nat → List Char → Option (Nat × List Char)
  | 0, code, rest => some (code, rest)
  | n + 1, code, s =>
    match escapedOctet s with
    | some (octet, rest) => if octet / 0x40 = 2 then continuationOctets n (code * 0x40 + octet % 0x40) rest else none
    | none => none

/-- One code point of an escaped sequence: never overlong, a surrogate or past U+10FFFF. -/
def escapedChar (s : List Char) : Option (Char × List Char) := do
  let (octet, rest) ← escapedOctet s
  let (following, payload, least) ← leadOctet octet
  let (code, rest) ← continuationOctets following payload rest
  if least ≤ code ∧ code.isValidChar then some (Char.ofNat code, rest) else none

def decodeChars : Nat → List Char → Option (List Char)
  | _, [] => some []
  | 0, _ :: _ => none
  | fuel + 1, c :: rest =>
    if c = '%' then do
      let (decoded, rest) ← escapedChar (c :: rest)
      return decoded :: (← decodeChars fuel rest)
    else do
      return c :: (← decodeChars fuel rest)

/-- Each step takes at least one character, so the text's length is fuel enough. -/
def decodeURIComponent (s : String) : Option String := (decodeChars s.toList.length s.toList).map String.ofList

example : decodeURIComponent "a%20%C3%A9" = some "a é" := by decide

example : decodeURIComponent "%C3" = none ∧ decodeURIComponent "%ED%A0%80" = none ∧ decodeURIComponent "%zz" = none := by decide

end Fabrika.Lib.Text
