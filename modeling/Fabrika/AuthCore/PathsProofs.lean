/-
  Fabrika.AuthCore.PathsProofs — paths and patterns as lists of raw segments (see
  `Fabrika.AuthCore.Paths` and `Fabrika.AuthCore.Endpoints`).

  A pattern that parses is its raw segments read one by one, so lying under a reserved prefix is
  starting with its segments (`isUnder_iff`). A row that matches a path under a prefix and is
  more specific than one under it lies under it too (`under_of_more_specific`): a reserved
  prefix never hands a path from one row to another, it only denies it.
-/

import Fabrika.AuthCore.EndpointsProofs
import Mathlib.Data.List.Nodup

namespace Fabrika.AuthCore.Endpoints

open Fabrika.Lib Fabrika.AuthCore.Paths

/-! ## Raw segments -/

def toSegment (raw : String) : Segment :=
  if raw = "*" then .wildcard
  else if Text.startsWith raw ":" then .param ((parameterName raw).getD "")
  else .literal raw

variable {p start q : String} {segments : List String}

theorem parseSegments_eq_map {names raw : List String} {segments : List Segment}
    (h : parseSegments names raw = .ok segments) : segments = raw.map toSegment := by
  induction raw generalizing names segments with
  | nil => cases h; rfl
  | cons segment rest ih =>
    have tail : ∀ {names : List String} {s : Segment}, toSegment segment = s →
        (parseSegments names rest).map (s :: ·) = .ok segments → segments = (segment :: rest).map toSegment := by
      intro names s hs h
      cases hr : parseSegments names rest with
      | error e => rw [hr] at h; cases h
      | ok t =>
        rw [hr] at h
        cases h
        rw [List.map_cons, hs, ih hr]
    unfold parseSegments at h
    by_cases hwild : segment = "*"
    · rw [if_pos hwild] at h
      split at h
      · cases h
      · rename_i hrest
        cases h
        simp only [ne_eq, Decidable.not_not] at hrest
        simp [hrest, toSegment, hwild]
    · rw [if_neg hwild] at h
      split at h
      · cases h
      · by_cases hparam : Text.startsWith segment ":" = true
        · rw [if_pos hparam] at h
          cases hname : parameterName segment with
          | none => rw [hname] at h; cases h
          | some name =>
            simp only [hname] at h
            split at h
            · cases h
            · split at h
              · cases h
              · exact tail (by simp only [toSegment, hwild, hparam, hname, if_false, if_true, Option.getD_some]) h
        · rw [if_neg hparam] at h
          exact tail (by simp only [toSegment, hwild, hparam, if_false]; rfl) h

theorem parsePattern_eq_map {segments : List Segment} (h : parsePattern p = .ok segments) :
    segments = (splitPath p).map toSegment := by
  unfold parsePattern at h
  split at h
  · cases h
  · exact parseSegments_eq_map h

theorem canonical_of_parsePattern {segments : List Segment} (h : parsePattern p = .ok segments) : isCanonicalPath p = true := by
  unfold parsePattern at h
  split at h
  · cases h
  · rename_i hc
    simpa using hc

theorem starts_of_canonical (h : isCanonicalPath p = true) : ∃ cs, p.toList = '/' :: cs := by
  unfold isCanonicalPath at h
  split at h
  · rename_i hroot
    exact ⟨[], by rw [hroot]; rfl⟩
  · split at h
    · cases h
    · rename_i hbad
      simp only [Bool.or_eq_true, Bool.not_eq_true', not_or, Bool.not_eq_false] at hbad
      have hstart := Text.startsWith_iff.mp hbad.1.1
      obtain ⟨cs, hcs⟩ := hstart
      exact ⟨cs, hcs.symm⟩

theorem segmentsOf_of_starts {cs : List Char} (h : p.toList = '/' :: cs) :
    segmentsOf p = Text.split (String.ofList cs) '/' := by
  simp [segmentsOf, h]

theorem splitPath_of_ne (h : p ≠ "/") : splitPath p = segmentsOf p := if_neg h

/-- A path lies under another where it starts with its segments and has more. -/
theorem isUnder_iff {cs ds : List Char} (hp : p.toList = '/' :: cs) (hs : start.toList = '/' :: ds) :
    isUnder p start = true ↔ ∃ rest, rest ≠ [] ∧ segmentsOf p = segmentsOf start ++ rest := by
  rw [isUnder, Text.startsWith_iff, String.toList_append, hp, hs, segmentsOf_of_starts hp, segmentsOf_of_starts hs]
  constructor
  · rintro ⟨tail, htail⟩
    have hcs : cs = ds ++ '/' :: tail := by simpa using htail.symm
    refine ⟨Text.split (String.ofList tail) '/', ?_, by rw [hcs, Text.split_append]⟩
    simpa [Text.split] using Text.splitChars_ne_nil '/' tail
  · rintro ⟨rest, hne, hrest⟩
    have hjoin : String.ofList cs = String.ofList ds ++ "/" ++ "/".intercalate rest := by
      have hcs := Text.join_split (String.ofList cs) '/'
      have hds := Text.join_split (String.ofList ds) '/'
      have hsep : String.singleton '/' = "/" := rfl
      rw [hsep] at hcs hds
      rw [hrest, String.intercalate_append_of_ne_nil (by simpa [Text.split] using Text.splitChars_ne_nil '/' ds) hne, hds] at hcs
      exact hcs.symm
    have hlist := congrArg String.toList hjoin
    simp only [String.toList_ofList, String.toList_append] at hlist
    refine ⟨("/".intercalate rest).toList, ?_⟩
    rw [hlist]
    simp

theorem isUnder_of_longer {q p a b : String} (ha : isUnder q a = true) (hb : isUnder q b = true) (hl : a.length ≤ b.length)
    (hp : isUnder p b = true) : isUnder p a = true := by
  simp only [isUnder, Text.startsWith_iff, String.toList_append] at ha hb hp ⊢
  have hlen : (a.toList ++ "/".toList).length ≤ (b.toList ++ "/".toList).length := by
    simp only [List.length_append, String.length_toList]
    omega
  exact (List.prefix_of_prefix_length_le ha hb hlen).trans hp

/-! ## Canonical paths by their segments -/

def encodedSeparators : List (List Char) := [['%', '2', 'f'], ['%', '2', 'F'], ['%', '5', 'c'], ['%', '5', 'C']]

theorem hasEncodedSeparator_iff {s : String} :
    hasEncodedSeparator s = true ↔ ∃ x ∈ encodedSeparators, x <:+: s.toList := by
  unfold hasEncodedSeparator
  rw [List.any_eq_true]
  constructor
  · rintro ⟨tail, hmem, h⟩
    have hsuffix := (List.mem_tails _ _).mp hmem
    split at h
    · rename_i c rest
      simp only [Bool.or_eq_true, beq_iff_eq] at h
      refine ⟨['%', '2', c], ?_, (List.IsPrefix.isInfix ⟨rest, rfl⟩).trans hsuffix.isInfix⟩
      rcases h with rfl | rfl <;> simp [encodedSeparators]
    · rename_i c rest
      simp only [Bool.or_eq_true, beq_iff_eq] at h
      refine ⟨['%', '5', c], ?_, (List.IsPrefix.isInfix ⟨rest, rfl⟩).trans hsuffix.isInfix⟩
      rcases h with rfl | rfl <;> simp [encodedSeparators]
    · cases h
  · rintro ⟨x, hx, before, after, hparts⟩
    refine ⟨x ++ after, (List.mem_tails _ _).mpr ⟨before, by rw [← hparts, List.append_assoc]⟩, ?_⟩
    simp only [encodedSeparators, List.mem_cons, List.not_mem_nil, or_false] at hx
    rcases hx with rfl | rfl | rfl | rfl <;> rfl

theorem infix_of_append_sep {α : Type} {x a b : List α} {sep : α} (h : x <:+: a ++ sep :: b) (hsep : sep ∉ x) :
    x <:+: a ∨ x <:+: b := by
  have hstart : ∀ {y : List α}, y ≠ [] → y <+: sep :: b → sep ∈ y := by
    intro y hy hprefix
    obtain ⟨c, ys, rfl⟩ := List.exists_cons_of_ne_nil hy
    rw [(List.cons_prefix_cons.mp hprefix).1]
    exact List.mem_cons_self
  rcases List.infix_append_iff_ne_nil.mp h with h | h | ⟨x₁, x₂, _, hne, rfl, _, hprefix⟩
  · exact .inl h
  · rcases List.infix_cons_iff.mp h with hprefix | h
    · by_cases hx : x = []
      · exact .inl (hx ▸ List.nil_infix)
      · exact absurd (hstart hx hprefix) hsep
    · exact .inr h
  · exact absurd (List.mem_append_right _ (hstart hne hprefix)) hsep

/-- What every segment of a canonical path is. -/
structure PlainSegment (segment : String) : Prop where
  slash : '/' ∉ segment.toList
  backslash : '\\' ∉ segment.toList
  encoded : hasEncodedSeparator segment = false
  dot : isDotSegment segment = false
  decodable : isDecodable segment = true

theorem canonicalSegments_iff : canonicalSegments segments = true ↔
    (∀ segment ∈ segments, isDotSegment segment = false ∧ isDecodable segment = true) ∧
      ∀ segment ∈ segments.dropLast, segment ≠ "" := by
  induction segments with
  | nil => simp [canonicalSegments]
  | cons segment rest ih =>
    cases rest with
    | nil => simp [canonicalSegments]
    | cons next rest =>
      rw [canonicalSegments]
      simp only [Bool.and_eq_true, ih]
      simp only [List.isEmpty_cons, Bool.or_false, bne_iff_ne, ne_eq, Bool.not_eq_true', List.mem_cons,
        List.dropLast_cons_cons, forall_eq_or_imp]
      tauto

theorem segmentsOf_join (hne : segments ≠ []) (hslash : ∀ s ∈ segments, '/' ∉ s.toList) :
    segmentsOf ("/" ++ "/".intercalate segments) = segments := by
  have hlist : ("/" ++ "/".intercalate segments).toList = '/' :: ("/".intercalate segments).toList := by simp
  rw [segmentsOf_of_starts hlist, String.ofList_toList]
  exact Text.split_join hne hslash

theorem join_ne_root (hne : segments ≠ []) (hroot : segments ≠ [""]) (hslash : ∀ s ∈ segments, '/' ∉ s.toList) :
    "/" ++ "/".intercalate segments ≠ "/" := by
  intro h
  have hsegs := segmentsOf_join hne hslash
  rw [h] at hsegs
  exact hroot (hsegs.symm.trans (by decide))

theorem splitPath_join (hroot : segments ≠ [""]) (hslash : ∀ s ∈ segments, '/' ∉ s.toList) :
    splitPath ("/" ++ "/".intercalate segments) = segments := by
  by_cases hne : segments = []
  · subst hne
    decide
  · rw [splitPath_of_ne (join_ne_root hne hroot hslash), segmentsOf_join hne hslash]

theorem infix_join {x : List Char} (hx : '/' ∉ x) (hne : x ≠ []) (h : x <:+: ("/" ++ "/".intercalate segments).toList) :
    ∃ s ∈ segments, x <:+: s.toList := by
  induction segments with
  | nil =>
    rw [show ("/" ++ "/".intercalate []).toList = [] ++ '/' :: [] by simp] at h
    rcases infix_of_append_sep h hx with h | h
    · exact absurd (List.infix_nil.mp h) hne
    · exact absurd (List.infix_nil.mp h) hne
  | cons s rest ih =>
    by_cases hrest : rest = []
    · subst hrest
      rw [show ("/" ++ "/".intercalate [s]).toList = [] ++ '/' :: s.toList by simp] at h
      rcases infix_of_append_sep h hx with h | h
      · exact absurd (List.infix_nil.mp h) hne
      · exact ⟨s, List.mem_cons_self, h⟩
    · rw [String.intercalate_cons_of_ne_nil hrest] at h
      have hlist : ("/" ++ (s ++ "/" ++ "/".intercalate rest)).toList =
          [] ++ '/' :: (s.toList ++ ("/" ++ "/".intercalate rest).toList) := by simp
      rw [hlist] at h
      rcases infix_of_append_sep h hx with h | h
      · exact absurd (List.infix_nil.mp h) hne
      · have hjoin : ("/" ++ "/".intercalate rest).toList = '/' :: ("/".intercalate rest).toList := by simp
        rw [hjoin] at h
        rcases infix_of_append_sep h hx with h | h
        · exact ⟨s, List.mem_cons_self, h⟩
        · obtain ⟨s', hs', hin⟩ := ih (by rw [hjoin]; exact List.infix_cons h)
          exact ⟨s', List.mem_cons_of_mem _ hs', hin⟩

theorem canonical_of_plain (hroot : segments ≠ [""]) (hplain : ∀ s ∈ segments, PlainSegment s)
    (hempty : ∀ s ∈ segments.dropLast, s ≠ "") : isCanonicalPath ("/" ++ "/".intercalate segments) = true := by
  by_cases hne : segments = []
  · subst hne
    decide
  · have hslash : ∀ s ∈ segments, '/' ∉ s.toList := fun s hs => (hplain s hs).slash
    rw [isCanonicalPath, if_neg (join_ne_root hne hroot hslash), segmentsOf_join hne hslash, if_neg]
    · exact (canonicalSegments_iff).mpr ⟨fun s hs => ⟨(hplain s hs).dot, (hplain s hs).decodable⟩, hempty⟩
    · simp only [Bool.or_eq_true, Bool.not_eq_true', not_or, Bool.not_eq_false]
      refine ⟨⟨Text.startsWith_iff.mpr ⟨("/".intercalate segments).toList, by simp⟩, ?_⟩, ?_⟩
      · rw [Text.includesChar, List.contains_eq_mem, decide_eq_true_eq]
        intro hmem
        obtain ⟨a, b, hab⟩ := List.append_of_mem hmem
        have hin : ['\\'] <:+: ("/" ++ "/".intercalate segments).toList := ⟨a, b, by rw [hab, List.append_assoc]; rfl⟩
        obtain ⟨s, hs, hin⟩ := infix_join (by decide) (by simp) hin
        exact (hplain s hs).backslash (hin.subset (List.mem_singleton.mpr rfl))
      · rw [hasEncodedSeparator_iff]
        rintro ⟨x, hx, hin⟩
        have hxs : '/' ∉ x ∧ x ≠ [] := by
          simp only [encodedSeparators, List.mem_cons, List.not_mem_nil, or_false] at hx
          rcases hx with rfl | rfl | rfl | rfl <;> decide
        obtain ⟨s, hs, hin⟩ := infix_join hxs.1 hxs.2 hin
        have := (hplain s hs).encoded
        rw [(hasEncodedSeparator_iff).mpr ⟨x, hx, hin⟩] at this
        cases this

/-- The segments of a canonical path. -/
theorem plain_of_canonical (h : isCanonicalPath q = true) :
    (∀ s ∈ splitPath q, PlainSegment s) ∧ (∀ s ∈ (splitPath q).dropLast, s ≠ "") ∧ splitPath q ≠ [""] := by
  by_cases hroot : q = "/"
  · subst hroot
    simp [splitPath]
  · obtain ⟨cs, hcs⟩ := starts_of_canonical h
    rw [isCanonicalPath, if_neg hroot] at h
    split at h
    · cases h
    · rename_i hbad
      simp only [Bool.or_eq_true, Bool.not_eq_true', not_or, Bool.not_eq_true, Bool.not_eq_false] at hbad
      obtain ⟨⟨_, hback⟩, henc⟩ := hbad
      obtain ⟨hdots, hempty⟩ := (canonicalSegments_iff).mp h
      have hparts : ∀ s ∈ segmentsOf q, s.toList <:+: q.toList := by
        intro s hs
        rw [segmentsOf_of_starts hcs] at hs
        have hin := Text.infix_of_mem_split hs
        rw [String.toList_ofList] at hin
        rw [hcs]
        exact List.infix_cons hin
      rw [splitPath_of_ne hroot]
      refine ⟨?_, hempty, ?_⟩
      · intro s hs
        refine ⟨?_, ?_, ?_, (hdots s hs).1, (hdots s hs).2⟩
        · rw [segmentsOf_of_starts hcs] at hs
          exact Text.not_mem_of_mem_split hs
        · intro hmem
          have hin := (hparts s hs).subset hmem
          rw [Text.includesChar, List.contains_eq_mem, decide_eq_false_iff_not] at hback
          exact hback hin
        · rw [Bool.eq_false_iff]
          intro hsep
          obtain ⟨x, hx, hin⟩ := (hasEncodedSeparator_iff).mp hsep
          rw [(hasEncodedSeparator_iff).mpr ⟨x, hx, hin.trans (hparts s hs)⟩] at henc
          cases henc
      · intro hone
        apply hroot
        have hjoin := Text.join_split (String.ofList cs) '/'
        rw [← segmentsOf_of_starts hcs, hone] at hjoin
        have hnil : cs = [] := by
          have := congrArg String.toList hjoin
          simpa using this.symm
        rw [← String.toList_inj, hcs, hnil]
        rfl

/-! ## Under a reserved prefix -/

theorem reserved_parses (h : isReservedPrefix start = true) : ∃ segments, parsePattern start = .ok segments ∧
    segments ≠ [] ∧ ∀ s ∈ segments, s.isLiteral = true := by
  unfold isReservedPrefix at h
  cases hp : parsePattern start with
  | error e => rw [hp] at h; cases h
  | ok segments =>
    rw [hp] at h
    simp only [Bool.and_eq_true, Bool.not_eq_true', List.isEmpty_eq_false_iff, List.all_eq_true] at h
    exact ⟨segments, rfl, h.1.1, h.2⟩

theorem reserved_segments (h : isReservedPrefix start = true) :
    splitPath start = segmentsOf start ∧ splitPath start ≠ [] ∧ ∀ raw ∈ splitPath start, toSegment raw = .literal raw := by
  obtain ⟨segments, hp, hne, hlit⟩ := reserved_parses h
  have hmap := parsePattern_eq_map hp
  have hsplit : splitPath start ≠ [] := by
    intro hnil
    rw [hnil] at hmap
    exact hne hmap
  have hroot : start ≠ "/" := by
    intro hroot
    rw [splitPath, if_pos hroot] at hsplit
    exact hsplit rfl
  refine ⟨splitPath_of_ne hroot, hsplit, ?_⟩
  intro raw hraw
  have hl := hlit (toSegment raw) (by rw [hmap]; exact List.mem_map.mpr ⟨raw, hraw, rfl⟩)
  unfold toSegment at hl ⊢
  split
  · rename_i hw
    simp [hw, Segment.isLiteral] at hl
  · split
    · rename_i hw hc
      simp [hw, hc, Segment.isLiteral] at hl
    · rfl

/-- A parsed pattern that matches what starts with `literals` and is more specific than one that
    starts with them, starts with them. -/
theorem starts_of_more_specific {literals : List String} (hlit : ∀ l ∈ literals, toSegment l = .literal l)
    {raw rest path : List String} {i : Nat} (hmatch : (matchFrom i (raw.map toSegment) (literals ++ path)).isSome)
    (hpath : path ≠ []) (hlt : ranks (raw.map toSegment) < ranks ((literals ++ rest).map toSegment)) :
    ∃ tail, tail ≠ [] ∧ raw = literals ++ tail := by
  induction literals generalizing raw i with
  | nil =>
    refine ⟨raw, ?_, rfl⟩
    rintro rfl
    simp [matchFrom, hpath] at hmatch
  | cons l literals ih =>
    have hl := hlit l List.mem_cons_self
    cases raw with
    | nil => simp [matchFrom] at hmatch
    | cons s raw =>
      simp only [List.cons_append, List.map_cons, ranks, hl, List.cons_lt_cons_iff, rank] at hlt
      rcases hlt with hlt | ⟨hzero, hlt⟩
      · omega
      · -- A segment of rank 0 is a literal, and the path has `l` where it stands.
        obtain rfl : s = l := by
          cases hs : toSegment s with
          | literal value =>
            have hvalue : value = s := by
              unfold toSegment at hs
              split at hs
              · cases hs
              · split at hs
                · cases hs
                · cases hs
                  rfl
            simp only [List.map_cons, hs, List.cons_append, matchFrom] at hmatch
            by_cases he : value = l
            · rw [← hvalue, he]
            · simp [he] at hmatch
          | param name => rw [hs] at hzero; cases hzero
          | wildcard => rw [hs] at hzero; cases hzero
        simp only [List.map_cons, hl, List.cons_append, matchFrom, ne_eq, not_true_eq_false, if_false] at hmatch
        obtain ⟨tail, htail, rfl⟩ := ih (fun l' hl' => hlit l' (List.mem_cons_of_mem _ hl')) hmatch hlt
        exact ⟨tail, htail, rfl⟩

section
variable {Row : Type} [EndpointPattern Row]

variable {row : Row} {table table' : EndpointPatternTable Row}

theorem patternOf_eq_map (h : (compileRow row).isSome) : patternOf row = (splitPath (path row)).map toSegment := by
  unfold compileRow at h
  unfold patternOf
  cases hp : parsePattern (path row) with
  | error e => rw [hp] at h; cases h
  | ok segments => exact parsePattern_eq_map hp

theorem canonical_of_compiles (h : (compileRow row).isSome) : isCanonicalPath (path row) = true := by
  unfold compileRow at h
  cases hp : parsePattern (path row) with
  | error e => rw [hp] at h; cases h
  | ok segments => exact canonical_of_parsePattern hp

/-- A row that matches a path under a reserved prefix and is more specific than one under the
    prefix lies under it too. -/
theorem under_of_more_specific (hreserved : isReservedPrefix start = true) (hq : isCanonicalPath q = true)
    (hunder : isUnder q start = true) {r w : Row} (hr : (compileRow r).isSome) (hw : (compileRow w).isSome)
    (hwunder : isUnder (path w) start = true) (hfits : (matchSegments (patternOf r) (splitPath q)).isSome)
    (hlt : compareSpecificity (patternOf r) (patternOf w) < 0) : isUnder (path r) start = true := by
  obtain ⟨segments, hsp, _⟩ := reserved_parses hreserved
  obtain ⟨ds, hds⟩ := starts_of_canonical (canonical_of_parsePattern hsp)
  obtain ⟨cs, hcs⟩ := starts_of_canonical hq
  obtain ⟨es, hes⟩ := starts_of_canonical (canonical_of_compiles hw)
  obtain ⟨fs, hfs⟩ := starts_of_canonical (canonical_of_compiles hr)
  obtain ⟨hsplit, hne, hlit⟩ := reserved_segments hreserved
  obtain ⟨qrest, hqne, hqsegs⟩ := (isUnder_iff hcs hds).mp hunder
  obtain ⟨wrest, hwne, hwsegs⟩ := (isUnder_iff hes hds).mp hwunder
  have hsplits : ∀ {p : String} {ps : List String}, ps ≠ [] → segmentsOf p = segmentsOf start ++ ps →
      splitPath p = splitPath start ++ ps := by
    intro p ps hps hseg
    rw [splitPath_of_ne, hsplit, hseg]
    -- The root has one segment, and a path under a prefix has two.
    rintro rfl
    have hlen := congrArg List.length hseg
    have hstart : 0 < (segmentsOf start).length := List.length_pos_iff.mpr (hsplit ▸ hne)
    have hrest : 0 < ps.length := List.length_pos_iff.mpr hps
    rw [List.length_append, show (segmentsOf "/").length = 1 by decide] at hlen
    omega
  rw [matchSegments, patternOf_eq_map hr, hsplits hqne hqsegs] at hfits
  rw [compareSpecificity_neg, patternOf_eq_map hr, patternOf_eq_map hw, hsplits hwne hwsegs] at hlt
  obtain ⟨tail, htail, hraw⟩ := starts_of_more_specific hlit hfits hqne hlt
  refine (isUnder_iff hfs hds).mpr ⟨tail, htail, ?_⟩
  rw [← hsplit, ← hraw, splitPath_of_ne]
  intro hroot
  rw [splitPath, if_pos hroot] at hraw
  exact hne (List.append_eq_nil_iff.mp hraw.symm).1

variable {requested : String}

/-- Where fewer reserved prefixes apply, a row that lay under the longest still does. -/
theorem under_of_fewer {starts : List String} (hmem : start ∈ starts) (hunder : isUnder q start = true)
    (hrow : ∀ l, Longest q starts l → isUnder (path row) l = true) : isUnder (path row) start = true := by
  rcases longestPrefixOf_cases q starts with ⟨-, hnone⟩ | ⟨l, -, hl⟩
  · rw [hnone start hmem] at hunder
    cases hunder
  · exact isUnder_of_longer hunder hl.under (hl.longest start hmem hunder) (hrow l hl)

/-! ## Selection apart from the reserved prefixes -/

/-- The table with no path reserved. -/
def unreserved (table : EndpointPatternTable Row) : EndpointPatternTable Row := { table with reservedPrefixes := [] }

/-- A reserved prefix keeps requests for `p` off the row: the path lies under it and the row does
    not. -/
def KeptOff (starts : List String) (p : String) (row : Row) : Prop :=
  ∃ start ∈ starts, isUnder p start = true ∧ isUnder (path row) start = false

theorem accepted_unreserved (ha : Accepted table) : Accepted (unreserved table) where
  ids := ha.ids
  parses := ha.parses
  distinct := ha.distinct
  reserved := fun _ h => absurd h List.not_mem_nil
  once := List.nodup_nil

theorem competes_unreserved :
    Competes (unreserved table) requested p row ↔ row ∈ table.endpoints ∧ servesMethod (method row) requested = true ∧
      (matchSegments (patternOf row) (splitPath p)).isSome := by
  constructor
  · intro h
    exact ⟨h.mem, h.serves, h.fits⟩
  · rintro ⟨hmem, hserves, hfits⟩
    exact ⟨hmem, hserves, hfits, fun _ hl => absurd hl.mem List.not_mem_nil⟩

/-- The reserved prefixes never move a request to another row: the most specific row that matches
    is selected, or kept off, and then nothing is. -/
theorem mostSpecific_iff_unreserved (ha : Accepted table) (hp : isCanonicalPath p = true) :
    MostSpecific table requested p row ↔
      MostSpecific (unreserved table) requested p row ∧ ¬ KeptOff table.reservedPrefixes p row := by
  constructor
  · intro h
    have hfree : Competes (unreserved table) requested p row :=
      (competes_unreserved).mpr ⟨h.competes.mem, h.competes.serves, h.competes.fits⟩
    refine ⟨?_, ?_⟩
    · obtain ⟨m, hm, -⟩ := mostSpecific_unique (accepted_unreserved ha) hp ⟨row, hfree⟩
      by_cases heq : m = row
      · exact heq ▸ hm
      · -- A more specific row would lie under the longest prefix as well, and win there.
        have hlt := hm.below row hfree (Ne.symm heq)
        obtain ⟨hmem, hserves, hfits⟩ := (competes_unreserved).mp hm.competes
        have hcompetes : Competes table requested p m := by
          refine ⟨hmem, hserves, hfits, ?_⟩
          intro start hstart
          exact under_of_more_specific (ha.reserved start hstart.mem) hp hstart.under (ha.parses m hmem)
            (ha.parses row h.competes.mem) (h.competes.reserved start hstart) hfits hlt
        have hgt := h.below m hcompetes heq
        rw [compareSpecificity_neg] at hlt hgt
        exact absurd (lt_trans hlt hgt) (lt_irrefl _)
    · rintro ⟨start, hmem, hunder, hnot⟩
      rw [under_of_fewer hmem hunder h.competes.reserved] at hnot
      cases hnot
  · rintro ⟨h, hkept⟩
    obtain ⟨hmem, hserves, hfits⟩ := (competes_unreserved).mp h.competes
    refine ⟨⟨hmem, hserves, hfits, ?_⟩, ?_⟩
    · intro start hstart
      by_contra hnot
      exact hkept ⟨start, hstart.mem, hstart.under, by simpa using hnot⟩
    · intro other hother
      exact h.below other ((competes_unreserved).mpr ⟨hother.mem, hother.serves, hother.fits⟩)

theorem mostSpecific_unreserved_congr {requested p q : String}
    (hfits : ∀ row ∈ table.endpoints, ((matchSegments (patternOf row) (splitPath p)).isSome ↔
      (matchSegments (patternOf row) (splitPath q)).isSome)) (h : MostSpecific (unreserved table) requested q row) :
    MostSpecific (unreserved table) requested p row := by
  have hcompetes : ∀ other, Competes (unreserved table) requested p other ↔ Competes (unreserved table) requested q other := by
    intro other
    rw [competes_unreserved, competes_unreserved]
    constructor
    · rintro ⟨hmem, hserves, hm⟩
      exact ⟨hmem, hserves, (hfits other hmem).mp hm⟩
    · rintro ⟨hmem, hserves, hm⟩
      exact ⟨hmem, hserves, (hfits other hmem).mpr hm⟩
  exact ⟨(hcompetes row).mpr h.competes, fun other hother => h.below other ((hcompetes other).mp hother)⟩

/-- A plan's outcome and row, apart from the parameters. -/
def answer : EndpointPlan Row → EndpointPlan Row
  | .endpoint row _ => .endpoint row []
  | plan => plan

theorem answer_planEndpoint (ha : Accepted table) (hp : isCanonicalPath p = true) (row : Row) :
    answer (planEndpoint (compiledTable table) requested p) = .endpoint row [] ↔ MostSpecific table requested p row := by
  constructor
  · intro h
    cases hplan : planEndpoint (compiledTable table) requested p with
    | nonCanonical => rw [hplan] at h; cases h
    | noEndpoint => rw [hplan] at h; cases h
    | endpoint row' params =>
      rw [hplan] at h
      cases h
      exact ((planEndpoint_eq_endpoint ha hp).mp hplan).1
  · intro h
    obtain ⟨params, hm⟩ := Option.isSome_iff_exists.mp h.competes.fits
    rw [(planEndpoint_eq_endpoint ha hp).mpr ⟨h, hm⟩]
    rfl

/-- Two paths get one answer where the same row is most specific at both, if any is. -/
theorem answer_congr (ha : Accepted table) {requested p q : String} (hp : isCanonicalPath p = true)
    (hq : isCanonicalPath q = true) :
    answer (planEndpoint (compiledTable table) requested q) = answer (planEndpoint (compiledTable table) requested p) ↔
      ∀ row, MostSpecific table requested q row ↔ MostSpecific table requested p row := by
  constructor
  · intro h row
    rw [← answer_planEndpoint ha hq, ← answer_planEndpoint ha hp, h]
  · intro h
    have hnone : ∀ {r : String}, isCanonicalPath r = true → (∀ row, ¬ MostSpecific table requested r row) →
        answer (planEndpoint (compiledTable table) requested r) = .noEndpoint := by
      intro r hr hno
      cases hplan : planEndpoint (compiledTable table) requested r with
      | nonCanonical => rw [planEndpoint_nonCanonical, hr] at hplan; cases hplan
      | noEndpoint => rfl
      | endpoint row params => exact absurd ((planEndpoint_eq_endpoint ha hr).mp hplan).1 (hno row)
    by_cases hsome : ∃ row, MostSpecific table requested p row
    · obtain ⟨row, hrow⟩ := hsome
      rw [(answer_planEndpoint ha hp row).mpr hrow, (answer_planEndpoint ha hq row).mpr ((h row).mpr hrow)]
    · have hno : ∀ row, ¬ MostSpecific table requested p row := fun row hrow => hsome ⟨row, hrow⟩
      rw [hnone hp hno, hnone hq fun row hrow => hno row ((h row).mp hrow)]

/-! ## Rows rewritten one by one -/

variable {f : Row → Row}

theorem compileRow_map (hpath : ∀ row, path (f row) = path row) (row : Row) :
    compileRow (f row) = (compileRow row).map fun e => ⟨f e.row, e.segments⟩ := by
  unfold compileRow
  rw [hpath]
  cases parsePattern (path row) <;> rfl

theorem patternOf_map (hpath : ∀ row, path (f row) = path row) (row : Row) : patternOf (f row) = patternOf row := by
  unfold patternOf
  rw [hpath]

/-- Rewriting each row, its id, method and path kept, and reordering rows and prefixes keeps a
    table accepted. -/
theorem accepted_map (hid : ∀ row, id (f row) = id row) (hmethod : ∀ row, method (f row) = method row)
    (hpath : ∀ row, path (f row) = path row) (hrows : (table.endpoints.map f).Perm table'.endpoints)
    (hstarts : table.reservedPrefixes.Perm table'.reservedPrefixes) (ha : Accepted table) : Accepted table' := by
  have hmap : Accepted (⟨table.endpoints.map f, table.reservedPrefixes⟩ : EndpointPatternTable Row) := by
    refine ⟨?_, ?_, ?_, ha.reserved, ha.once⟩
    · simp only [List.map_map]
      rw [show (id ∘ f : Row → String) = id from funext hid]
      exact ha.ids
    · intro row hrow
      obtain ⟨r, hr, rfl⟩ := List.mem_map.mp hrow
      rw [compileRow_map hpath, Option.isSome_map]
      exact ha.parses r hr
    · have hcompiled : (table.endpoints.map f).filterMap compileRow =
          (table.endpoints.filterMap compileRow).map fun e => ⟨f e.row, e.segments⟩ := by
        rw [List.filterMap_map, List.map_filterMap]
        congr 1
        funext row
        exact compileRow_map hpath row
      rw [hcompiled, List.pairwise_map]
      refine ha.distinct.imp ?_
      intro a b hno hclash
      exact hno ⟨hclash.1, by simpa only [hmethod] using hclash.2⟩
  exact @accepted_perm Row _ ⟨table.endpoints.map f, table.reservedPrefixes⟩ table' hrows hstarts hmap

theorem longest_perm {starts starts' : List String} (h : starts.Perm starts') :
    Longest q starts start ↔ Longest q starts' start := by
  rw [← longestPrefixOf_eq_some, ← longestPrefixOf_eq_some, longestPrefixOf_perm h]

theorem competes_map (hmethod : ∀ row, method (f row) = method row) (hpath : ∀ row, path (f row) = path row)
    (hrows : (table.endpoints.map f).Perm table'.endpoints) (hstarts : table.reservedPrefixes.Perm table'.reservedPrefixes) :
    Competes table' requested q row ↔ ∃ r, f r = row ∧ Competes table requested q r := by
  constructor
  · intro h
    obtain ⟨r, hr, rfl⟩ := List.mem_map.mp (hrows.mem_iff.mpr h.mem)
    refine ⟨r, rfl, hr, by rw [← hmethod]; exact h.serves, by rw [← patternOf_map hpath]; exact h.fits, ?_⟩
    intro start hstart
    rw [← hpath]
    exact h.reserved start ((longest_perm hstarts).mp hstart)
  · rintro ⟨r, rfl, h⟩
    refine ⟨hrows.mem_iff.mp (List.mem_map.mpr ⟨r, h.mem, rfl⟩), by rw [hmethod]; exact h.serves,
      by rw [patternOf_map hpath]; exact h.fits, ?_⟩
    intro start hstart
    rw [hpath]
    exact h.reserved start ((longest_perm hstarts).mpr hstart)

theorem mostSpecific_map (hid : ∀ row, id (f row) = id row) (hmethod : ∀ row, method (f row) = method row)
    (hpath : ∀ row, path (f row) = path row) (hrows : (table.endpoints.map f).Perm table'.endpoints)
    (hstarts : table.reservedPrefixes.Perm table'.reservedPrefixes) (ha : Accepted table) :
    MostSpecific table' requested q row ↔ ∃ r, f r = row ∧ MostSpecific table requested q r := by
  constructor
  · intro h
    obtain ⟨r, rfl, hr⟩ := (competes_map hmethod hpath hrows hstarts).mp h.competes
    refine ⟨r, rfl, hr, ?_⟩
    intro other hother hne
    have hne' : f other ≠ f r := by
      intro heq
      apply hne
      have hids : id other = id r := by rw [← hid other, ← hid r, heq]
      exact List.inj_on_of_nodup_map ha.ids hother.mem hr.mem hids
    have hbelow := h.below (f other) ((competes_map hmethod hpath hrows hstarts).mpr ⟨other, rfl, hother⟩) hne'
    rwa [patternOf_map hpath, patternOf_map hpath] at hbelow
  · rintro ⟨r, rfl, h⟩
    refine ⟨(competes_map hmethod hpath hrows hstarts).mpr ⟨r, rfl, h.competes⟩, ?_⟩
    intro other hother hne
    obtain ⟨o, rfl, ho⟩ := (competes_map hmethod hpath hrows hstarts).mp hother
    rw [patternOf_map hpath, patternOf_map hpath]
    exact h.below o ho (fun heq => hne (by rw [heq]))

end

end Fabrika.AuthCore.Endpoints
