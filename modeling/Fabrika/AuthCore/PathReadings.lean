/-
  Fabrika.AuthCore.PathReadings — a canonical path means one thing to every hop.

  A hop may take dot segments out of a path (`removeDotSegments`, the loop of RFC 3986
  5.2.4), split it and decode the segments (`splitThenDecode`), or decode it and split at
  either slash (`decodeThenSplit`). A path is canonical exactly where it starts with `/`,
  holds no literal backslash, and the three leave the same segments, none of them a dot
  segment and only the last one empty (`isCanonicalPath_iff`).

  An encoded separator is the one thing the two orders of splitting and decoding read
  differently: a decodable segment that holds one decodes to a text with a separator
  (`separator_of_encoded`). A dot segment has one spelling more for each way of
  writing a dot (`isDotSegment_iff`), and all of them decode to `.` or `..`.
-/

import Fabrika.AuthCore.PathsProofs
import Fabrika.Lib.Percent

namespace Fabrika.AuthCore.Paths

open Fabrika.Lib Fabrika.AuthCore.Endpoints

/-! ## The readings -/

/-- The output buffer less its last segment and the slash before it. -/
def dropLastSegment (out : List Char) : List Char := ((out.reverse.dropWhile (· ≠ '/')).drop 1).reverse

/-- One turn a fuel: each turn takes at least one character of the input. -/
def removeDots : Nat → List Char → List Char → List Char
  | 0, out, _ => out
  | _ + 1, out, [] => out
  -- A: a leading dot segment goes.
  | fuel + 1, out, '.' :: '.' :: '/' :: rest => removeDots fuel out rest
  | fuel + 1, out, '.' :: '/' :: rest => removeDots fuel out rest
  -- B: a dot segment becomes its slash.
  | fuel + 1, out, '/' :: '.' :: '/' :: rest => removeDots fuel out ('/' :: rest)
  | fuel + 1, out, ['/', '.'] => removeDots fuel out ['/']
  -- C: two dots also take the last segment of the output.
  | fuel + 1, out, '/' :: '.' :: '.' :: '/' :: rest => removeDots fuel (dropLastSegment out) ('/' :: rest)
  | fuel + 1, out, ['/', '.', '.'] => removeDots fuel (dropLastSegment out) ['/']
  -- D: an input of dots alone goes.
  | _ + 1, out, ['.'] => out
  | _ + 1, out, ['.', '.'] => out
  -- E: the first segment moves, with the slash before it.
  | fuel + 1, out, c :: rest => removeDots fuel (out ++ c :: rest.takeWhile (· ≠ '/')) (rest.dropWhile (· ≠ '/'))

def removeDotSegments (path : String) : String := String.ofList (removeDots path.toList.length [] path.toList)

example : removeDotSegments "/a/b/c/./../../g" = "/a/g" ∧ removeDotSegments "mid/content=5/../6" = "mid/6" := by decide

def isSeparator (c : Char) : Bool := c == '/' || c == '\\'

/-- The segments at `/`, each decoded. -/
def splitThenDecode (path : String) : Option (List String) := (Text.split path '/').mapM Text.decodeURIComponent

/-- The decoded path, split at either slash. -/
def decodeThenSplit (path : String) : Option (List String) :=
  (Text.decodeURIComponent path).map fun decoded => (decoded.toList.splitOnP isSeparator).map String.ofList

/-- What the readings of a path agree on: the segments after the leading slash. -/
structure ReadAlike (path : String) (segments : List String) : Prop where
  undotted : removeDotSegments path = path
  split : splitThenDecode path = some ("" :: segments)
  decoded : decodeThenSplit path = some ("" :: segments)
  noDots : ∀ segment ∈ segments, segment ≠ "." ∧ segment ≠ ".."
  onlyLastEmpty : ∀ segment ∈ segments.dropLast, segment ≠ ""

/-! ## Dot segments -/

/-- The ways to write a dot. -/
def dotSpellings : List (List Char) := [['.'], ['%', '2', 'e'], ['%', '2', 'E']]

variable {cs out rest s x : List Char} {α β : Type} {p : String} {xs : List α} {ys : List β} {R : α → β → Prop}

variable {outs : List String}

theorem decodeDots_append {dot : List Char} (hdot : dot ∈ dotSpellings) (rest : List Char) :
    decodeDots (dot ++ rest) = '.' :: decodeDots rest := by
  simp only [dotSpellings, List.mem_cons, List.not_mem_nil, or_false] at hdot
  rcases hdot with rfl | rfl | rfl
  · simp [decodeDots]
  · rfl
  · rfl

theorem decodeDots_eq_cons {ds : List Char} (h : decodeDots cs = '.' :: ds) :
    ∃ dot ∈ dotSpellings, ∃ rest, cs = dot ++ rest ∧ decodeDots rest = ds := by
  unfold decodeDots at h
  split at h
  · cases h
  · next rest => exact ⟨['%', '2', 'e'], by simp [dotSpellings], rest, rfl, (List.cons.inj h).2⟩
  · next rest => exact ⟨['%', '2', 'E'], by simp [dotSpellings], rest, rfl, (List.cons.inj h).2⟩
  · next c rest _ _ =>
    obtain ⟨rfl, hrest⟩ := List.cons.inj h
    exact ⟨['.'], by simp [dotSpellings], rest, rfl, hrest⟩

theorem decodeDots_eq_nil (h : decodeDots cs = []) : cs = [] := by
  unfold decodeDots at h
  split at h
  · rfl
  · cases h
  · cases h
  · cases h

theorem decodes_dot {dot rest out : List Char} (hdot : dot ∈ dotSpellings) (h : Text.Decodes rest out) :
    Text.Decodes (dot ++ rest) ('.' :: out) := by
  simp only [dotSpellings, List.mem_cons, List.not_mem_nil, or_false] at hdot
  rcases hdot with rfl | rfl | rfl
  · exact .plain (by decide) h
  · exact .escape (@Text.escapedChar_of_ascii _ _ 0x2E rfl (by decide)) h
  · exact .escape (@Text.escapedChar_of_ascii _ _ 0x2E rfl (by decide)) h

theorem decodes_eq_dot (h : Text.Decodes s ('.' :: out)) :
    ∃ dot ∈ dotSpellings, ∃ rest, s = dot ++ rest ∧ Text.Decodes rest out := by
  cases h with
  | plain _ hrest => exact ⟨['.'], by simp [dotSpellings], _, rfl, hrest⟩
  | escape hescape hrest =>
    obtain ⟨a, b, high, low, rfl, ha, hb, hoctet⟩ := Text.escapedOctet_eq_some.mp (Text.escapedChar_ascii hescape (by decide))
    have hcode : '.'.toNat = 46 := rfl
    have haval := Text.hexDigit_eq_some ha
    have hbval := Text.hexDigit_eq_some hb
    have hatwo : a = '2' := Char.toNat_inj.mp (show a.toNat = 50 by omega)
    have hbe : b = 'e' ∨ b = 'E' := by
      have hb' : b.toNat = 101 ∨ b.toNat = 69 := by omega
      exact hb'.imp Char.toNat_inj.mp Char.toNat_inj.mp
    subst hatwo
    rcases hbe with rfl | rfl
    · exact ⟨['%', '2', 'e'], by simp [dotSpellings], _, rfl, hrest⟩
    · exact ⟨['%', '2', 'E'], by simp [dotSpellings], _, rfl, hrest⟩

theorem decodes_eq_nil (h : Text.Decodes s []) : s = [] := by
  cases h with
  | nil => rfl

/-- `replace(ENCODED_DOT, '.')` makes dots of exactly the texts that decode to dots. -/
theorem decodeDots_eq_replicate {n : Nat} : decodeDots cs = List.replicate n '.' ↔ Text.Decodes cs (List.replicate n '.') := by
  induction n generalizing cs with
  | zero =>
    constructor
    · intro h
      rw [decodeDots_eq_nil h]
      exact .nil
    · intro h
      rw [decodes_eq_nil h]
      rfl
  | succ n ih =>
    constructor
    · intro h
      obtain ⟨dot, hdot, rest, rfl, hrest⟩ := decodeDots_eq_cons h
      exact decodes_dot hdot (ih.mp hrest)
    · intro h
      obtain ⟨dot, hdot, rest, rfl, hrest⟩ := decodes_eq_dot h
      rw [decodeDots_append hdot, ih.mpr hrest, List.replicate_succ]

theorem isDotSegment_iff {segment : String} : isDotSegment segment = true ↔
    Text.Decodes segment.toList ['.'] ∨ Text.Decodes segment.toList ['.', '.'] := by
  simp only [isDotSegment, Bool.or_eq_true, beq_iff_eq]
  exact or_congr (decodeDots_eq_replicate (n := 1)) (decodeDots_eq_replicate (n := 2))

/-! ## Encoded separators -/

theorem escapedOctet_within {octet : Nat} (h : Text.escapedOctet s = some (octet, rest)) (hx : x ∈ encodedSeparators)
    (hin : x <:+: s) : octet = 0x2F ∨ octet = 0x5C ∨ x <:+: rest := by
  obtain ⟨a, b, high, low, rfl, ha, hb, rfl⟩ := Text.escapedOctet_eq_some.mp h
  -- An encoded separator starts with `%`, and the escape has one at its first place only.
  have hstart : ∀ {c : Char} {n : Nat} {tail : List Char}, Text.hexDigit c = some n → x <:+: c :: tail → x <:+: tail := by
    intro c n tail hc hin
    rcases List.infix_cons_iff.mp hin with hprefix | hin
    · have hne : c ≠ '%' := Text.hexDigit_ne hc (by decide)
      simp only [encodedSeparators, List.mem_cons, List.not_mem_nil, or_false] at hx
      rcases hx with rfl | rfl | rfl | rfl <;> exact absurd (List.cons_prefix_cons.mp hprefix).1.symm hne
    · exact hin
  rcases List.infix_cons_iff.mp hin with hprefix | hin
  · simp only [encodedSeparators, List.mem_cons, List.not_mem_nil, or_false] at hx
    rcases hx with rfl | rfl | rfl | rfl
    · simp only [List.cons_prefix_cons] at hprefix
      obtain ⟨-, rfl, rfl, -⟩ := hprefix
      cases ha
      cases hb
      exact .inl rfl
    · simp only [List.cons_prefix_cons] at hprefix
      obtain ⟨-, rfl, rfl, -⟩ := hprefix
      cases ha
      cases hb
      exact .inl rfl
    · simp only [List.cons_prefix_cons] at hprefix
      obtain ⟨-, rfl, rfl, -⟩ := hprefix
      cases ha
      cases hb
      exact .inr (.inl rfl)
    · simp only [List.cons_prefix_cons] at hprefix
      obtain ⟨-, rfl, rfl, -⟩ := hprefix
      cases ha
      cases hb
      exact .inr (.inl rfl)
  · exact .inr (.inr (hstart hb (hstart ha hin)))

theorem continuationOctets_within {n code code' : Nat} (h : Text.continuationOctets n code s = some (code', rest))
    (hx : x ∈ encodedSeparators) (hin : x <:+: s) : x <:+: rest := by
  induction n generalizing code s with
  | zero =>
    cases h
    exact hin
  | succ n ih =>
    obtain ⟨octet, mid, hoctet, hrange, hrest⟩ := Text.continuationOctets_succ.mp h
    rcases escapedOctet_within hoctet hx hin with rfl | rfl | hin
    · exact absurd hrange (by decide)
    · exact absurd hrange (by decide)
    · exact ih hrest hin

theorem escapedChar_within {c : Char} (h : Text.escapedChar s = some (c, rest)) (hx : x ∈ encodedSeparators) (hin : x <:+: s) :
    isSeparator c = true ∨ x <:+: rest := by
  obtain ⟨octet, following, payload, least, code, mid, hoctet, hlead, hcont, -⟩ := Text.escapedChar_eq_some.mp h
  rcases escapedOctet_within hoctet hx hin with rfl | rfl | hin
  · rw [Text.escapedChar_of_ascii hoctet (by decide)] at h
    cases h
    exact .inl rfl
  · rw [Text.escapedChar_of_ascii hoctet (by decide)] at h
    cases h
    exact .inl rfl
  · exact .inr (continuationOctets_within hcont hx hin)

/-- A decodable text that holds an encoded separator decodes to a text with a separator. -/
theorem separator_of_encoded (h : Text.Decodes s out) (hx : x ∈ encodedSeparators) (hin : x <:+: s) :
    ∃ c ∈ out, isSeparator c = true := by
  have hne : ∃ tail, x = '%' :: tail := by
    simp only [encodedSeparators, List.mem_cons, List.not_mem_nil, or_false] at hx
    rcases hx with rfl | rfl | rfl | rfl <;> exact ⟨_, rfl⟩
  obtain ⟨xs, rfl⟩ := hne
  induction h with
  | nil => exact absurd (List.infix_nil.mp hin) (by simp)
  | plain hc _ ih =>
    rcases List.infix_cons_iff.mp hin with hprefix | hin
    · exact absurd (List.cons_prefix_cons.mp hprefix).1.symm hc
    · obtain ⟨d, hd, hsep⟩ := ih hin
      exact ⟨d, List.mem_cons_of_mem _ hd, hsep⟩
  | escape hescape _ ih =>
    rcases escapedChar_within hescape hx hin with hsep | hin
    · exact ⟨_, List.mem_cons_self, hsep⟩
    · obtain ⟨d, hd, hsep⟩ := ih hin
      exact ⟨d, List.mem_cons_of_mem _ hd, hsep⟩

/-- A separator in a decoded text stands there as it is, or is spelt by an encoded one. -/
theorem encoded_of_separator (h : Text.Decodes s out) (hout : ∃ c ∈ out, isSeparator c = true) :
    (∃ c ∈ s, isSeparator c = true) ∨ ∃ x ∈ encodedSeparators, x <:+: s := by
  induction h with
  | nil =>
    obtain ⟨c, hc, -⟩ := hout
    cases hc
  | @plain c s out hne hdecodes ih =>
    obtain ⟨d, hd, hsep⟩ := hout
    rcases List.mem_cons.mp hd with rfl | hd
    · exact .inl ⟨d, List.mem_cons_self, hsep⟩
    · rcases ih ⟨d, hd, hsep⟩ with ⟨e, he, hsep⟩ | ⟨x, hx, hin⟩
      · exact .inl ⟨e, List.mem_cons_of_mem _ he, hsep⟩
      · exact .inr ⟨x, hx, List.infix_cons hin⟩
  | @escape c s rest out hescape hdecodes ih =>
    obtain ⟨tail, htail, hsuffix⟩ := Text.escapedChar_suffix hescape
    obtain ⟨d, hd, hsep⟩ := hout
    rcases List.mem_cons.mp hd with rfl | hd
    · have hcode : d.toNat = 47 ∨ d.toNat = 92 := by
        simp only [isSeparator, Bool.or_eq_true, beq_iff_eq] at hsep
        rcases hsep with rfl | rfl
        · exact .inl rfl
        · exact .inr rfl
      obtain ⟨a, b, high, low, rfl, ha, hb, hoctet⟩ := Text.escapedOctet_eq_some.mp (Text.escapedChar_ascii hescape (by omega))
      have haval := Text.hexDigit_eq_some ha
      have hbval := Text.hexDigit_eq_some hb
      have hspelt : ['%', a, b] ∈ encodedSeparators := by
        have hchars : (a.toNat = 50 ∧ (b.toNat = 102 ∨ b.toNat = 70)) ∨ (a.toNat = 53 ∧ (b.toNat = 99 ∨ b.toNat = 67)) := by omega
        rcases hchars with ⟨ha, hb | hb⟩ | ⟨ha, hb | hb⟩
        all_goals
          rw [← Char.ofNat_toNat a, ← Char.ofNat_toNat b, ha, hb]
          decide
      exact .inr ⟨_, hspelt, ⟨[], rest, rfl⟩⟩
    · rcases ih ⟨d, hd, hsep⟩ with ⟨e, he, hsep⟩ | ⟨x, hx, hin⟩
      · exact .inl ⟨e, htail ▸ List.mem_cons_of_mem _ (hsuffix.subset he), hsep⟩
      · exact .inr ⟨x, hx, htail ▸ List.infix_cons (hin.trans hsuffix.isInfix)⟩

/-! ## Removing dot segments -/

theorem removeDots_segment {seg tail : List Char} (hslash : '/' ∉ seg) (hdot : seg ≠ ['.']) (hdots : seg ≠ ['.', '.'])
    (htail : ∀ c ∈ tail.head?, c = '/') (fuel : Nat) (out : List Char) :
    removeDots (fuel + 1) out ('/' :: (seg ++ tail)) = removeDots fuel (out ++ '/' :: seg) tail := by
  have hcut : ∀ {text : List Char}, '/' ∉ text → ∀ {rest : List Char}, seg ++ tail = text ++ '/' :: rest → seg = text := by
    intro text htext rest heq
    cases tail with
    | nil =>
      rw [List.append_nil] at heq
      exact absurd (heq ▸ List.mem_append_right _ List.mem_cons_self) hslash
    | cons c tail =>
      obtain rfl : c = '/' := htail c rfl
      exact (Text.cut_first_inj heq hslash htext).1
  have hend : ∀ {text : List Char}, '/' ∉ text → seg ++ tail = text → seg = text := by
    intro text htext heq
    cases tail with
    | nil => simpa using heq
    | cons c tail =>
      obtain rfl : c = '/' := htail c rfl
      exact absurd (heq ▸ List.mem_append_right _ List.mem_cons_self) htext
  have hplain : ∀ c ∈ seg, decide (c ≠ '/') = true := by
    intro c hc
    rw [decide_eq_true_eq]
    rintro rfl
    exact hslash hc
  have hstops : tail.takeWhile (fun c => decide (c ≠ '/')) = [] ∧ tail.dropWhile (fun c => decide (c ≠ '/')) = tail := by
    cases tail with
    | nil => exact ⟨rfl, rfl⟩
    | cons c tail =>
      obtain rfl : c = '/' := htail c rfl
      exact ⟨rfl, rfl⟩
  rw [removeDots]
  · rw [List.takeWhile_append_of_pos hplain, List.dropWhile_append_of_pos hplain, hstops.1, hstops.2, List.append_nil]
  · rintro rest ⟨⟩
  · rintro rest ⟨⟩
  · intro rest _ heq
    exact hdot (@hcut ['.'] (by decide) rest heq)
  · intro _ heq
    exact hdot (hend (by decide) heq)
  · intro rest _ heq
    exact hdots (@hcut ['.', '.'] (by decide) rest heq)
  · intro _ heq
    exact hdots (hend (by decide) heq)
  · rintro ⟨⟩
  · rintro ⟨⟩

/-- Without dot segments the loop moves segment after segment. -/
theorem removeDots_segments {segs : List (List Char)} (h : ∀ seg ∈ segs, '/' ∉ seg ∧ seg ≠ ['.'] ∧ seg ≠ ['.', '.']) (fuel : Nat)
    (hfuel : (segs.flatMap fun seg => '/' :: seg).length ≤ fuel) (out : List Char) :
    removeDots fuel out (segs.flatMap fun seg => '/' :: seg) = out ++ segs.flatMap fun seg => '/' :: seg := by
  induction segs generalizing fuel out with
  | nil =>
    cases fuel with
    | zero => simp [removeDots]
    | succ fuel => simp [removeDots]
  | cons seg rest ih =>
    obtain ⟨hslash, hdot, hdots⟩ := h seg List.mem_cons_self
    rw [List.flatMap_cons, List.cons_append] at hfuel ⊢
    rw [List.length_cons, List.length_append] at hfuel
    have hhead : ∀ c ∈ (rest.flatMap fun seg => '/' :: seg).head?, c = '/' := by
      intro c hc
      cases rest with
      | nil => cases hc
      | cons next rest => exact (Option.some.inj hc).symm
    obtain ⟨fuel, rfl⟩ : ∃ n, fuel = n + 1 := ⟨fuel - 1, by omega⟩
    rw [removeDots_segment hslash hdot hdots hhead,
      ih (fun other hother => h other (List.mem_cons_of_mem _ hother)) fuel (by omega), List.append_assoc, List.cons_append]

/-! ## Paths and their segments -/

theorem mapM_eq_some {f : α → Option β} : xs.mapM f = some ys ↔ List.Forall₂ (fun x y => f x = some y) xs ys := by
  induction xs generalizing ys with
  | nil => simp [eq_comm]
  | cons x xs ih =>
    rw [List.mapM_cons, List.forall₂_cons_left_iff]
    simp only [Option.bind_eq_bind, Option.bind_eq_some_iff, Option.pure_def, Option.some.injEq, ih]
    constructor
    · rintro ⟨y, hy, rest, hrest, rfl⟩
      exact ⟨y, rest, hy, hrest, rfl⟩
    · rintro ⟨y, rest, hy, hrest, rfl⟩
      exact ⟨y, hy, rest, hrest, rfl⟩

theorem flatMap_slash {segs : List (List Char)} (hne : segs ≠ []) :
    '/' :: ['/'].intercalate segs = segs.flatMap fun seg => '/' :: seg := by
  induction segs with
  | nil => exact absurd rfl hne
  | cons seg rest ih =>
    by_cases hrest : rest = []
    · subst hrest
      simp
    · rw [List.intercalate_cons_of_ne_nil hrest, List.flatMap_cons, ← ih hrest]
      simp

theorem splitOnP_intercalate {outs : List (List Char)} (hne : outs ≠ [])
    (hplain : ∀ out ∈ outs, ∀ c ∈ out, isSeparator c = false) :
    (['/'].intercalate outs).splitOnP isSeparator = outs := by
  induction outs with
  | nil => exact absurd rfl hne
  | cons out rest ih =>
    have hout := hplain out List.mem_cons_self
    by_cases hrest : rest = []
    · subst hrest
      rw [List.intercalate_singleton, List.splitOnP_eq_singleton hout]
    · rw [List.intercalate_cons_of_ne_nil hrest, List.append_assoc, List.singleton_append,
        List.splitOnP_append_cons_of_forall_mem hout '/' rfl, ih hrest fun other hother =>
        hplain other (List.mem_cons_of_mem _ hother)]

theorem mem_splitOnP {p : α → Bool} {part : List α} (h : part ∈ xs.splitOnP p) : ∀ c ∈ part, p c = false := by
  induction xs generalizing part with
  | nil =>
    rw [List.splitOnP_nil, List.mem_singleton] at h
    simp [h]
  | cons x xs ih =>
    rw [List.splitOnP_cons_eq_if_modifyHead] at h
    by_cases hx : p x = true
    · rw [if_pos hx, List.mem_cons] at h
      rcases h with rfl | h
      · simp
      · exact ih h
    · rw [if_neg hx] at h
      cases hsplit : xs.splitOnP p with
      | nil => exact absurd hsplit (List.splitOnP_ne_nil p xs)
      | cons first others =>
        rw [hsplit, List.modifyHead_cons, List.mem_cons] at h
        rcases h with rfl | h
        · intro c hc
          rcases List.mem_cons.mp hc with rfl | hc
          · simpa using hx
          · exact ih (by rw [hsplit]; exact List.mem_cons_self) c hc
        · exact ih (by rw [hsplit]; exact List.mem_cons_of_mem _ h)

/-- Canonical paths, by the segments after the leading slash. -/
theorem isCanonicalPath_iff_plain (hcs : p.toList = '/' :: cs) : isCanonicalPath p = true ↔
    (∀ s ∈ segmentsOf p, PlainSegment s) ∧ ∀ s ∈ (segmentsOf p).dropLast, s ≠ "" := by
  by_cases hroot : p = "/"
  · subst hroot
    have hsegments : segmentsOf "/" = [""] := by decide
    have hempty : PlainSegment "" := ⟨by simp, by simp, by decide, by decide, by decide⟩
    rw [hsegments]
    simp [hempty, isCanonicalPath]
  · constructor
    · intro h
      obtain ⟨hplain, hlast, -⟩ := plain_of_canonical h
      rw [splitPath_of_ne hroot] at hplain hlast
      exact ⟨hplain, hlast⟩
    · rintro ⟨hplain, hlast⟩
      have hjoin : "/" ++ "/".intercalate (segmentsOf p) = p := by
        apply String.toList_inj.mp
        have hsplit := congrArg String.toList (Text.join_split (String.ofList cs) '/')
        rw [String.toList_ofList] at hsplit
        rw [segmentsOf_of_starts hcs, String.toList_append, hcs]
        exact congrArg ('/' :: ·) hsplit
      have hne : segmentsOf p ≠ [""] := by
        intro hone
        rw [hone] at hjoin
        exact hroot (hjoin.symm.trans (by decide))
      rw [← hjoin]
      exact canonical_of_plain hne hplain hlast

theorem split_of_starts (hcs : p.toList = '/' :: cs) : Text.split p '/' = "" :: segmentsOf p := by
  rw [segmentsOf_of_starts hcs, Text.split, hcs, Text.splitChars, if_pos rfl, Text.split, String.toList_ofList]
  rfl

/-- The path, as the characters of its segments. -/
theorem toList_of_starts (hcs : p.toList = '/' :: cs) :
    p.toList = '/' :: ['/'].intercalate ((segmentsOf p).map String.toList) := by
  have hsplit := congrArg String.toList (Text.join_split (String.ofList cs) '/')
  rw [String.toList_ofList, String.toList_intercalate, String.toList_singleton] at hsplit
  rw [segmentsOf_of_starts hcs, hsplit, hcs]

theorem segmentsOf_ne_nil (p : String) : segmentsOf p ≠ [] := by
  rw [segmentsOf, Text.split, ne_eq, List.map_eq_nil_iff]
  exact Text.splitChars_ne_nil '/' _

theorem forall₂_decodes {segments : List String} :
    List.Forall₂ (fun s o => Text.decodeURIComponent s = some o) segments outs ↔
      List.Forall₂ Text.Decodes (segments.map String.toList) (outs.map String.toList) := by
  rw [List.forall₂_map_left_iff, List.forall₂_map_right_iff]
  simp only [Text.decodeURIComponent_eq_some]

theorem splitThenDecode_eq_some (hcs : p.toList = '/' :: cs) :
    splitThenDecode p = some ("" :: outs) ↔ List.Forall₂ (fun s o => Text.decodeURIComponent s = some o) (segmentsOf p) outs := by
  have hempty : Text.decodeURIComponent "" = some "" := by decide
  rw [splitThenDecode, split_of_starts hcs, mapM_eq_some, List.forall₂_cons]
  exact and_iff_right hempty

theorem exists_forall₂ (h : ∀ x ∈ xs, ∃ y, R x y) : ∃ ys, List.Forall₂ R xs ys := by
  induction xs with
  | nil => exact ⟨[], .nil⟩
  | cons x xs ih =>
    obtain ⟨y, hy⟩ := h x List.mem_cons_self
    obtain ⟨ys, hys⟩ := ih fun z hz => h z (List.mem_cons_of_mem _ hz)
    exact ⟨y :: ys, .cons hy hys⟩

/-- Only an empty segment decodes to an empty one. -/
theorem empty_of_decodes {s : String} (h : Text.decodeURIComponent s = some "") : s = "" := by
  have hdecodes := Text.decodeURIComponent_eq_some.mp h
  exact String.toList_inj.mp (decodes_eq_nil hdecodes)

theorem forall₂_dropLast (h : List.Forall₂ R xs ys) : List.Forall₂ R xs.dropLast ys.dropLast := by
  rw [List.dropLast_eq_take, List.dropLast_eq_take, h.length_eq]
  exact List.forall₂_take _ h

theorem forall₂_mem_left (h : List.Forall₂ R xs ys) {x : α} (hx : x ∈ xs) : ∃ y ∈ ys, R x y := by
  induction h with
  | nil => cases hx
  | cons hxy _ ih =>
    rcases List.mem_cons.mp hx with rfl | hx
    · exact ⟨_, List.mem_cons_self, hxy⟩
    · obtain ⟨y, hy, hR⟩ := ih hx
      exact ⟨y, List.mem_cons_of_mem _ hy, hR⟩

theorem forall₂_mem_right (h : List.Forall₂ R xs ys) {y : β} (hy : y ∈ ys) :
    ∃ x ∈ xs, R x y := forall₂_mem_left (R := flip R) h.flip hy

/-- The plain segments of a path decode to what every reading of it answers. -/
theorem readAlike_of_plain (hcs : p.toList = '/' :: cs) (hplain : ∀ s ∈ segmentsOf p, PlainSegment s)
    (hlast : ∀ s ∈ (segmentsOf p).dropLast, s ≠ "") : ∃ segments, ReadAlike p segments := by
  have hdecodable : ∀ s ∈ segmentsOf p, ∃ o, Text.decodeURIComponent s = some o := fun s hs =>
    Option.isSome_iff_exists.mp (hplain s hs).decodable
  obtain ⟨outs, houts⟩ := exists_forall₂ hdecodable
  have hchars := (forall₂_decodes).mp houts
  have hnone : ∀ s ∈ segmentsOf p, ∀ out, Text.Decodes s.toList out → ∀ c ∈ out, isSeparator c = false := by
    intro s hs out hout c hc
    rw [Bool.eq_false_iff]
    intro hsep
    rcases encoded_of_separator hout ⟨c, hc, hsep⟩ with ⟨d, hd, hdsep⟩ | hencoded
    · simp only [isSeparator, Bool.or_eq_true, beq_iff_eq] at hdsep
      rcases hdsep with rfl | rfl
      · exact (hplain s hs).slash hd
      · exact (hplain s hs).backslash hd
    · have hclean := (hplain s hs).encoded
      rw [hasEncodedSeparator_iff.mpr hencoded] at hclean
      cases hclean
  refine ⟨outs, ?_, (splitThenDecode_eq_some hcs).mpr houts, ?_, ?_, ?_⟩
  · have hne : (segmentsOf p).map String.toList ≠ [] := by simpa using segmentsOf_ne_nil p
    have hlist := (toList_of_starts hcs).trans (flatMap_slash hne)
    apply String.toList_inj.mp
    rw [removeDotSegments, String.toList_ofList, hlist, removeDots_segments _ _ le_rfl, List.nil_append]
    intro seg hseg
    obtain ⟨s, hs, rfl⟩ := List.mem_map.mp hseg
    have hdot := (hplain s hs).dot
    refine ⟨(hplain s hs).slash, ?_, ?_⟩
    · intro heq
      rw [isDotSegment, heq] at hdot
      cases hdot
    · intro heq
      rw [isDotSegment, heq] at hdot
      cases hdot
  · have hdecodes : Text.Decodes p.toList ('/' :: ['/'].intercalate (outs.map String.toList)) := by
      rw [toList_of_starts hcs]
      exact .plain (by decide) ((Text.decodes_intercalate (by decide) (by decide)).mpr ⟨_, hchars, rfl⟩)
    have hwhole : Text.decodeURIComponent p = some (String.ofList ('/' :: ['/'].intercalate (outs.map String.toList))) := by
      rw [Text.decodeURIComponent_eq_some, String.toList_ofList]
      exact hdecodes
    have hne : outs.map String.toList ≠ [] := by
      intro hnil
      have hlength := houts.length_eq
      rw [List.map_eq_nil_iff.mp hnil, List.length_nil] at hlength
      exact segmentsOf_ne_nil p (List.length_eq_zero_iff.mp hlength)
    have hclean : ∀ out ∈ outs.map String.toList, ∀ c ∈ out, isSeparator c = false := by
      intro out hout
      obtain ⟨o, ho, rfl⟩ := List.mem_map.mp hout
      obtain ⟨s, hs, hso⟩ := forall₂_mem_right houts ho
      exact hnone s hs o.toList (Text.decodeURIComponent_eq_some.mp hso)
    rw [decodeThenSplit, hwhole, Option.map_some, String.toList_ofList, List.splitOnP_cons_eq_if_modifyHead, if_pos (by decide),
      splitOnP_intercalate hne hclean, List.map_cons, List.map_map]
    simp [Function.comp_def]
  · intro o ho
    obtain ⟨s, hs, hso⟩ := forall₂_mem_right houts ho
    have hdecodes := Text.decodeURIComponent_eq_some.mp hso
    have hdot := (hplain s hs).dot
    rw [Bool.eq_false_iff, ne_eq, isDotSegment_iff] at hdot
    refine ⟨?_, ?_⟩
    · rintro rfl
      exact hdot (.inl hdecodes)
    · rintro rfl
      exact hdot (.inr hdecodes)
  · intro o ho
    obtain ⟨s, hs, hso⟩ := forall₂_mem_right (forall₂_dropLast houts) ho
    rintro rfl
    exact hlast s hs (empty_of_decodes hso)

theorem plain_of_readAlike (hcs : p.toList = '/' :: cs) (hback : '\\' ∉ p.toList) (h : ReadAlike p outs) :
    (∀ s ∈ segmentsOf p, PlainSegment s) ∧ ∀ s ∈ (segmentsOf p).dropLast, s ≠ "" := by
  have houts := (splitThenDecode_eq_some hcs).mp h.split
  have hclean : ∀ o ∈ outs, ∀ c ∈ o.toList, isSeparator c = false := by
    intro o ho
    have hdecoded := h.decoded
    rw [decodeThenSplit, Option.map_eq_some_iff] at hdecoded
    obtain ⟨whole, -, hwhole⟩ := hdecoded
    have hmem : o ∈ (whole.toList.splitOnP isSeparator).map String.ofList := by
      rw [hwhole]
      exact List.mem_cons_of_mem _ ho
    obtain ⟨part, hpart, rfl⟩ := List.mem_map.mp hmem
    rw [String.toList_ofList]
    exact mem_splitOnP hpart
  refine ⟨?_, ?_⟩
  · intro s hs
    obtain ⟨o, ho, hso⟩ := forall₂_mem_left houts hs
    have hdecodes := Text.decodeURIComponent_eq_some.mp hso
    rw [segmentsOf_of_starts hcs] at hs
    have hwithin := Text.infix_of_mem_split hs
    rw [String.toList_ofList] at hwithin
    refine ⟨Text.not_mem_of_mem_split hs, ?_, ?_, ?_, ?_⟩
    · intro hmem
      exact hback (hcs ▸ List.mem_cons_of_mem _ (hwithin.subset hmem))
    · rw [Bool.eq_false_iff]
      intro hsep
      obtain ⟨x, hx, hin⟩ := hasEncodedSeparator_iff.mp hsep
      obtain ⟨c, hc, hcsep⟩ := separator_of_encoded hdecodes hx hin
      rw [hclean o ho c hc] at hcsep
      cases hcsep
    · rw [Bool.eq_false_iff, ne_eq, isDotSegment_iff]
      rintro (hdot | hdot)
      · exact (h.noDots o ho).1 (Option.some.inj (hso.symm.trans (Text.decodeURIComponent_eq_some.mpr hdot)))
      · exact (h.noDots o ho).2 (Option.some.inj (hso.symm.trans (Text.decodeURIComponent_eq_some.mpr hdot)))
    · rw [isDecodable, hso]
      rfl
  · intro s hs
    obtain ⟨o, ho, hso⟩ := forall₂_mem_left (forall₂_dropLast houts) hs
    rintro rfl
    have hempty : Text.decodeURIComponent "" = some "" := by decide
    exact h.onlyLastEmpty o ho (Option.some.inj (hso.symm.trans hempty))

theorem backslash_of_canonical (h : isCanonicalPath p = true) : '\\' ∉ p.toList := by
  rw [isCanonicalPath] at h
  split at h
  · next hroot =>
    rw [hroot]
    decide
  · split at h
    · cases h
    · next hbad =>
      simp only [Bool.or_eq_true, not_or, Text.includesChar, List.contains_eq_mem, decide_eq_true_eq] at hbad
      exact hbad.1.2

/-- A path is canonical exactly where it starts with a slash, holds no literal backslash
    and every reading of it finds the same segments. -/
theorem isCanonicalPath_iff (p : String) : isCanonicalPath p = true ↔
    Text.startsWith p "/" = true ∧ '\\' ∉ p.toList ∧ ∃ segments, ReadAlike p segments := by
  constructor
  · intro h
    obtain ⟨cs, hcs⟩ := starts_of_canonical h
    obtain ⟨hplain, hlast⟩ := (isCanonicalPath_iff_plain hcs).mp h
    exact ⟨Text.startsWith_iff.mpr ⟨cs, hcs.symm⟩, backslash_of_canonical h, readAlike_of_plain hcs hplain hlast⟩
  · rintro ⟨hstarts, hback, segments, hread⟩
    obtain ⟨cs, hcs⟩ := Text.startsWith_iff.mp hstarts
    obtain ⟨hplain, hlast⟩ := plain_of_readAlike hcs.symm hback hread
    exact (isCanonicalPath_iff_plain hcs.symm).mpr ⟨hplain, hlast⟩

end Fabrika.AuthCore.Paths
