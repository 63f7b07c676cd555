/-
  Fabrika.AuthCore.EndpointsProofs — the matcher selects the one most specific row.

  `compareSpecificity` is the lexicographic order of the segments' ranks
  (`compares_specificity`), so it never sees a literal's text. Two patterns of equal ranks
  that both match one path have the same shape (`shape_eq_of_match`), and two rows that
  both serve one method overlap: the analysis refused that pair (`analyse_ok_iff`). So in
  an accepted table no two candidates of a request compare equal, the loop's tie flag
  never stays set, and its answer depends on neither the order of the rows nor that of the
  reserved prefixes.
-/

import Fabrika.AuthCore.Endpoints
import Mathlib.Data.List.Lex
import Mathlib.Data.List.Perm.Basic

namespace Fabrika.AuthCore.Endpoints

open Fabrika.Lib Fabrika.AuthCore.Paths

/-! ## Specificity is an order of ranks -/

def ranks (segments : List Segment) : List Nat := segments.map rank

theorem compareSpecificity_neg : ∀ a b : List Segment, compareSpecificity a b < 0 ↔ ranks a < ranks b
  | [], [] => by simp [compareSpecificity, ranks]
  | [], _ :: _ => by
    simp only [compareSpecificity, ranks, List.map_nil, List.map_cons, List.nil_lt_cons, iff_true, List.length_nil,
      List.length_cons]
    omega
  | _ :: _, [] => by simp [compareSpecificity, ranks]; omega
  | l :: a, r :: b => by
    have ih := compareSpecificity_neg a b
    simp only [compareSpecificity, ranks, List.map_cons, List.cons_lt_cons_iff] at ih ⊢
    by_cases he : rank l = rank r
    · simp [he, ih]
    · have hne : ((rank l : Int) - rank r) ≠ 0 := by omega
      simp only [hne, he, false_and, or_false, ne_eq, not_false_eq_true, if_true]
      omega

theorem compareSpecificity_zero : ∀ a b : List Segment, compareSpecificity a b = 0 ↔ ranks a = ranks b
  | [], [] => by simp [compareSpecificity, ranks]
  | [], _ :: _ => by simp [compareSpecificity, ranks]; omega
  | _ :: _, [] => by simp [compareSpecificity, ranks]; omega
  | l :: a, r :: b => by
    have ih := compareSpecificity_zero a b
    simp only [compareSpecificity, ranks, List.map_cons, List.cons.injEq] at ih ⊢
    by_cases he : rank l = rank r
    · simp [he, ih]
    · have hne : ((rank l : Int) - rank r) ≠ 0 := by omega
      simp [hne, he]

/-! ## Equal ranks and one matched path give one shape -/

/-- A wildcard is the last segment of its pattern. -/
def EndsAtWildcard : List Segment → Prop
  | [] => True
  | .wildcard :: rest => rest = []
  | _ :: rest => EndsAtWildcard rest

theorem endsAtWildcard_cons {s : Segment} {t : List Segment} (hs : s ≠ .wildcard) (ht : EndsAtWildcard t) :
    EndsAtWildcard (s :: t) := by
  cases s with
  | wildcard => exact absurd rfl hs
  | param name => exact ht
  | literal value => exact ht

theorem parseSegments_endsAtWildcard {names raw : List String} {segments : List Segment}
    (h : parseSegments names raw = .ok segments) : EndsAtWildcard segments := by
  induction raw generalizing names segments with
  | nil => simp only [parseSegments, Except.ok.injEq] at h; subst h; trivial
  | cons segment rest ih =>
    have tail : ∀ {names : List String} {s : Segment}, s ≠ .wildcard →
        (parseSegments names rest).map (s :: ·) = .ok segments → EndsAtWildcard segments := by
      intro names s hs h
      cases hr : parseSegments names rest with
      | error e => rw [hr] at h; cases h
      | ok t => rw [hr] at h; cases h; exact endsAtWildcard_cons hs (ih hr)
    unfold parseSegments at h
    split at h
    · split at h
      · cases h
      · cases h; rfl
    · split at h
      · cases h
      · split at h
        · split at h
          · cases h
          · split at h
            · cases h
            · split at h
              · cases h
              · exact tail (by simp) h
        · exact tail (by simp) h

theorem parsePattern_endsAtWildcard {p : String} {segments : List Segment} (h : parsePattern p = .ok segments) :
    EndsAtWildcard segments := by
  unfold parsePattern at h
  split at h
  · cases h
  · exact parseSegments_endsAtWildcard h

theorem shape_eq_of_match {a b : List Segment} (ha : EndsAtWildcard a) (hb : EndsAtWildcard b) (hr : ranks a = ranks b)
    {i j : Nat} {path : List String} (hma : (matchFrom i a path).isSome) (hmb : (matchFrom j b path).isSome) :
    shape a = shape b := by
  induction a generalizing b i j path with
  | nil =>
    cases b with
    | nil => rfl
    | cons r b => simp [ranks] at hr
  | cons l a ih =>
    cases b with
    | nil => simp [ranks] at hr
    | cons r b =>
      simp only [ranks, List.map_cons, List.cons.injEq] at hr
      cases l with
      | wildcard =>
        cases r with
        | wildcard => rw [show a = [] from ha, show b = [] from hb]
        | param name => simp [rank] at hr
        | literal value => simp [rank] at hr
      | param name =>
        cases r with
        | wildcard => simp [rank] at hr
        | literal value => simp [rank] at hr
        | param name' =>
          cases path with
          | nil => simp [matchFrom] at hma
          | cons value path =>
            simp only [matchFrom] at hma hmb
            split at hma
            · cases hma
            · split at hmb
              · cases hmb
              · simp only [Option.isSome_map] at hma hmb
                have := ih (b := b) ha hb hr.2 hma hmb
                simp only [shape, List.map_cons, shapeOf] at this ⊢
                rw [this]
      | literal expected =>
        cases r with
        | wildcard => simp [rank] at hr
        | param name => simp [rank] at hr
        | literal expected' =>
          cases path with
          | nil => simp [matchFrom] at hma
          | cons value path =>
            simp only [matchFrom, ne_eq, ite_not] at hma hmb
            split at hma
            · split at hmb
              · rename_i e e'
                subst e e'
                have := ih (b := b) ha hb hr.2 hma hmb
                simp only [shape, List.map_cons] at this ⊢
                rw [this]
              · cases hmb
            · cases hma

theorem methodsOverlap_of_serves {a b : EndpointMethod} {requested : String} (ha : servesMethod a requested)
    (hb : servesMethod b requested) : methodsOverlap a b := by
  cases a <;> cases b <;> simp [servesMethod, methodsOverlap, EndpointMethod.text] at ha hb ⊢ <;> subst ha <;> simp at hb

theorem methodsOverlap_comm (a b : EndpointMethod) : methodsOverlap a b = methodsOverlap b a := by
  cases a <;> cases b <;> rfl

/-! ## What the analysis accepts -/

section
variable {Row : Type} [EndpointPattern Row]

def compileRow (row : Row) : Option (CompiledEndpoint Row) :=
  match parsePattern (path row) with
  | .ok segments => some ⟨row, segments⟩
  | .error _ => none

def compiledTable (table : EndpointPatternTable Row) : CompiledEndpointTable Row :=
  ⟨table.endpoints.filterMap compileRow, table.reservedPrefixes⟩

/-- Two endpoints no specificity orders: one method of both, paths of one shape. -/
def Clash (a b : CompiledEndpoint Row) : Prop :=
  shape a.segments = shape b.segments ∧ methodsOverlap (method a.row) (method b.row) = true

structure Accepted (table : EndpointPatternTable Row) : Prop where
  ids : (table.endpoints.map id).Nodup
  parses : ∀ row ∈ table.endpoints, (compileRow row).isSome
  distinct : (table.endpoints.filterMap compileRow).Pairwise (fun a b => ¬ Clash a b)
  reserved : ∀ start ∈ table.reservedPrefixes, isReservedPrefix start = true
  once : table.reservedPrefixes.Nodup

def analyseRows (rows : List Row) : Analysis Row := rows.foldl analyseRow {}

theorem analyseRows_concat (rows : List Row) (row : Row) :
    analyseRows (rows ++ [row]) = analyseRow (analyseRows rows) row := by
  simp [analyseRows, List.foldl_append]

theorem analyseRows_ids (rows : List Row) : (analyseRows rows).ids = (rows.map id).reverse := by
  induction rows using List.reverseRecOn with
  | nil => rfl
  | append_singleton rows row ih =>
    rw [analyseRows_concat, analyseRow]
    cases parsePattern (path row) <;> simp [ih]

theorem analyseRows_endpoints (rows : List Row) : (analyseRows rows).endpoints = rows.filterMap compileRow := by
  induction rows using List.reverseRecOn with
  | nil => rfl
  | append_singleton rows row ih =>
    rw [analyseRows_concat, analyseRow]
    cases h : parsePattern (path row) <;> simp [ih, compileRow, h]

theorem analyseRows_shapes (rows : List Row) :
    (analyseRows rows).shapes = (rows.filterMap compileRow).map fun e => (shape e.segments, e.row) := by
  induction rows using List.reverseRecOn with
  | nil => rfl
  | append_singleton rows row ih =>
    rw [analyseRows_concat, analyseRow]
    cases h : parsePattern (path row) <;> simp [ih, compileRow, h]

theorem analyseRow_problems (s : Analysis Row) (row : Row) : (analyseRow s row).problems = [] ↔
    s.problems = [] ∧ id row ∉ s.ids ∧ ∃ e, compileRow row = some e ∧
      ∀ other ∈ s.shapes, ¬ (other.1 = shape e.segments ∧ methodsOverlap (method other.2) (method row) = true) := by
  unfold analyseRow compileRow
  cases h : parsePattern (path row) with
  | error problem => simp
  | ok segments =>
    simp only [Option.some.injEq, exists_eq_left']
    cases hf : s.shapes.find? (fun other => other.1 == shape segments && methodsOverlap (method other.2) (method row)) with
    | some other =>
      have hmem := List.mem_of_find?_eq_some hf
      have hbad := List.find?_some hf
      simp only [Bool.and_eq_true, beq_iff_eq] at hbad
      simp only [List.append_eq_nil_iff, List.cons_ne_self, and_false, false_iff, not_and]
      exact fun _ _ hall => hall other hmem hbad.1 hbad.2
    | none =>
      simp only [List.find?_eq_none, Bool.and_eq_true, beq_iff_eq] at hf
      by_cases hid : id row ∈ s.ids
      · simp [hid]
      · simp only [hid, if_false, not_false_eq_true, true_and]
        exact ⟨fun hp => ⟨hp, hf⟩, fun hp => hp.1⟩

theorem analyseRows_problems (rows : List Row) : (analyseRows rows).problems = [] ↔
    (rows.map id).Nodup ∧ (∀ row ∈ rows, (compileRow row).isSome) ∧
      (rows.filterMap compileRow).Pairwise (fun a b => ¬ Clash a b) := by
  induction rows using List.reverseRecOn with
  | nil => simp [analyseRows]
  | append_singleton rows row ih =>
    rw [analyseRows_concat, analyseRow_problems, ih, analyseRows_ids, analyseRows_shapes]
    cases hc : compileRow row with
    | none => simp [hc]
    | some e =>
      have hrow : e.row = row := by
        unfold compileRow at hc
        split at hc
        · cases hc; rfl
        · cases hc
      have hids : ((rows ++ [row]).map id).Nodup ↔ (rows.map id).Nodup ∧ id row ∉ (rows.map id).reverse := by
        rw [List.map_append, List.nodup_append]
        simp
      have hdistinct : ((rows ++ [row]).filterMap compileRow).Pairwise (fun a b => ¬ Clash a b) ↔
          (rows.filterMap compileRow).Pairwise (fun a b => ¬ Clash a b) ∧ ∀ a ∈ rows.filterMap compileRow, ¬ Clash a e := by
        simp [List.filterMap_append, List.pairwise_append, hc]
      have hshapes : (∃ e', some e = some e' ∧ ∀ other ∈ (rows.filterMap compileRow).map (fun e => (shape e.segments, e.row)),
          ¬ (other.1 = shape e'.segments ∧ methodsOverlap (method other.2) (method row) = true)) ↔
          ∀ a ∈ rows.filterMap compileRow, ¬ Clash a e := by
        simp only [Option.some.injEq, exists_eq_left', List.forall_mem_map, Clash, hrow]
      rw [hids, hdistinct, hshapes]
      simp only [List.mem_append, List.mem_singleton, or_imp, forall_and, forall_eq, hc, Option.isSome_some, and_true]
      tauto

theorem foldl_analysePrefix (starts : List String) (problems : List String) :
    (starts.foldl analysePrefix (problems, [])).1 = [] ↔
      problems = [] ∧ (∀ start ∈ starts, isReservedPrefix start = true) ∧ starts.Nodup := by
  have hseen : ∀ starts : List String, (starts.foldl analysePrefix (problems, [])).2 = starts.reverse := by
    intro starts
    induction starts using List.reverseRecOn with
    | nil => rfl
    | append_singleton starts start ih => simp [List.foldl_append, analysePrefix, ih]
  induction starts using List.reverseRecOn with
  | nil => simp
  | append_singleton starts start ih =>
    rw [List.foldl_append, List.foldl_cons, List.foldl_nil, analysePrefix, hseen]
    cases hr : isReservedPrefix start with
    | false => simp [hr]
    | true =>
      by_cases hm : start ∈ starts
      · simp [hm, List.nodup_append]
      · simp only [hm, List.mem_reverse, if_false, Bool.not_true, Bool.false_eq_true, ih]
        simp [or_imp, forall_and, hr, List.nodup_append]
        intro _ _ _ a ha e
        exact hm (e ▸ ha)

theorem analyse_ok_iff (table : EndpointPatternTable Row) (endpoints : List (CompiledEndpoint Row)) :
    analyse table = .ok endpoints ↔ Accepted table ∧ endpoints = table.endpoints.filterMap compileRow := by
  have hp : (table.reservedPrefixes.foldl analysePrefix ((analyseRows table.endpoints).problems, [])).1 = [] ↔
      Accepted table := by
    rw [foldl_analysePrefix, analyseRows_problems]
    exact ⟨fun ⟨⟨a, b, c⟩, d, e⟩ => ⟨a, b, c, d, e⟩, fun h => ⟨⟨h.ids, h.parses, h.distinct⟩, h.reserved, h.once⟩⟩
  have he : analyse table = if (table.reservedPrefixes.foldl analysePrefix
      ((analyseRows table.endpoints).problems, [])).1.length > 0
      then .error (table.reservedPrefixes.foldl analysePrefix ((analyseRows table.endpoints).problems, [])).1
      else .ok (analyseRows table.endpoints).endpoints := rfl
  rw [he]
  split
  · rename_i hlen
    have hne : ¬ Accepted table := fun ha => by rw [hp.mpr ha] at hlen; simp at hlen
    simp [hne]
  · rename_i hlen
    have hnil := List.eq_nil_of_length_eq_zero (Nat.le_zero.mp (Nat.not_lt.mp hlen))
    rw [analyseRows_endpoints]
    simp [hp.mp hnil, eq_comm]

theorem compile_ok_iff (table : EndpointPatternTable Row) (compiled : CompiledEndpointTable Row) :
    compileEndpointTable table = .ok compiled ↔
      Accepted table ∧ compiled = compiledTable table := by
  unfold compileEndpointTable compiledTable
  cases ha : analyse table with
  | error problems =>
    have hne : ¬ Accepted table := fun h => by
      have := (analyse_ok_iff table _).mpr ⟨h, rfl⟩
      rw [ha] at this; cases this
    simp [Except.map, hne]
  | ok endpoints =>
    obtain ⟨h, rfl⟩ := (analyse_ok_iff table _).mp ha
    simp [Except.map, h, eq_comm]

/-! ## The longest reserved prefix -/

/-- `start` is the longest of `starts` the path lies under. -/
structure Longest (rawPath : String) (starts : List String) (start : String) : Prop where
  mem : start ∈ starts
  under : isUnder rawPath start = true
  longest : ∀ other ∈ starts, isUnder rawPath other = true → other.length ≤ start.length

variable {rawPath requested : String} {row : Row} {table : EndpointPatternTable Row}

theorem eq_of_isUnder {rawPath a b : String} (ha : isUnder rawPath a = true) (hb : isUnder rawPath b = true)
    (hl : a.length = b.length) : a = b := by
  simp only [isUnder, Text.startsWith_iff, String.toList_append] at ha hb
  have ha' := (List.prefix_append a.toList _).trans ha
  have hb' := (List.prefix_append b.toList _).trans hb
  have hl' : a.toList.length = b.toList.length := by simpa only [String.length_toList] using hl
  exact String.toList_inj.mp (List.prefix_of_prefix_length_le ha' hb' hl'.le |>.eq_of_length hl')

theorem longestPrefixOf_cases (rawPath : String) (starts : List String) :
    (longestPrefixOf rawPath starts = none ∧ ∀ start ∈ starts, isUnder rawPath start = false) ∨
      ∃ start, longestPrefixOf rawPath starts = some start ∧ Longest rawPath starts start := by
  induction starts using List.reverseRecOn with
  | nil => left; simp [longestPrefixOf]
  | append_singleton starts start ih =>
    have hstep : longestPrefixOf rawPath (starts ++ [start]) =
        longerPrefix rawPath (longestPrefixOf rawPath starts) start := by
      simp [longestPrefixOf, List.foldl_append]
    rw [hstep]
    unfold longerPrefix
    cases hu : isUnder rawPath start with
    | false =>
      simp only [Bool.not_false, if_true]
      rcases ih with ⟨hn, hall⟩ | ⟨best, hb, hl⟩
      · exact Or.inl ⟨hn, by simpa [or_imp, forall_and] using ⟨hall, hu⟩⟩
      · refine Or.inr ⟨best, hb, ⟨by simp [hl.mem], hl.under, ?_⟩⟩
        simp only [List.mem_append, List.mem_singleton]
        rintro other (ho | rfl) hou
        · exact hl.longest other ho hou
        · rw [hu] at hou; cases hou
    | true =>
      right
      rcases ih with ⟨hn, hall⟩ | ⟨best, hb, hl⟩
      · refine ⟨start, by simp [hn], ⟨by simp, hu, ?_⟩⟩
        simp only [List.mem_append, List.mem_singleton]
        rintro other (ho | rfl) hou
        · rw [hall other ho] at hou; cases hou
        · exact le_refl _
      · rw [hb]
        by_cases hlt : start.length > best.length
        · refine ⟨start, by simp [hlt], ⟨by simp, hu, ?_⟩⟩
          simp only [List.mem_append, List.mem_singleton]
          rintro other (ho | rfl) hou
          · exact (hl.longest other ho hou).trans hlt.le
          · exact le_refl _
        · refine ⟨best, by simp [hlt], ⟨by simp [hl.mem], hl.under, ?_⟩⟩
          simp only [List.mem_append, List.mem_singleton]
          rintro other (ho | rfl) hou
          · exact hl.longest other ho hou
          · exact Nat.not_lt.mp hlt

variable {c : CompiledEndpoint Row × Params}

theorem longestPrefixOf_eq_some {starts : List String} {start : String} :
    longestPrefixOf rawPath starts = some start ↔ Longest rawPath starts start := by
  rcases longestPrefixOf_cases rawPath starts with ⟨hn, hall⟩ | ⟨best, hb, hl⟩
  · rw [hn]
    constructor
    · intro h; cases h
    · intro h; exact absurd h.under (by simp [hall start h.mem])
  · rw [hb, Option.some.injEq]
    constructor
    · rintro rfl; exact hl
    · intro h
      exact eq_of_isUnder hl.under h.under (le_antisymm (h.longest best hl.mem hl.under) (hl.longest start h.mem h.under))

theorem longestPrefixOf_perm {starts starts' : List String} (hp : starts.Perm starts') :
    longestPrefixOf rawPath starts = longestPrefixOf rawPath starts' := by
  have hl : ∀ start, Longest rawPath starts start ↔ Longest rawPath starts' start := by
    intro start
    exact ⟨fun h => ⟨hp.mem_iff.mp h.mem, h.under, fun o ho => h.longest o (hp.mem_iff.mpr ho)⟩,
      fun h => ⟨hp.mem_iff.mpr h.mem, h.under, fun o ho => h.longest o (hp.mem_iff.mp ho)⟩⟩
  refine Option.ext fun start => ?_
  simp only [longestPrefixOf_eq_some, hl]

/-! ## The candidates of a request -/

def candidates (table : CompiledEndpointTable Row) (requested rawPath : String) : List (CompiledEndpoint Row × Params) :=
  table.endpoints.filterMap (candidate (longestPrefixOf rawPath table.reservedPrefixes) requested (splitPath rawPath))

def bySpecificity (a b : CompiledEndpoint Row × Params) : Int := compareSpecificity a.1.segments b.1.segments

omit [EndpointPattern Row] in
theorem compares_specificity :
    Select.Compares bySpecificity (fun c : CompiledEndpoint Row × Params => ranks c.1.segments) :=
  ⟨fun _ _ => compareSpecificity_neg _ _, fun _ _ => compareSpecificity_zero _ _⟩

theorem competition_eq_scan (table : CompiledEndpointTable Row) (requested rawPath : String) :
    competition table requested rawPath = Select.scan bySpecificity (candidates table requested rawPath) := by
  unfold competition Select.scan candidates
  rw [List.foldl_filterMap]
  congr 1
  funext s e
  unfold consider
  cases candidate (longestPrefixOf rawPath table.reservedPrefixes) requested (splitPath rawPath) e <;> rfl

theorem candidate_eq_some {reserved : Option String} {path' : List String} {e : CompiledEndpoint Row} :
    candidate reserved requested path' e = some c ↔ c.1 = e ∧ servesMethod (method e.row) requested = true ∧
      (∀ start, reserved = some start → isUnder (path e.row) start = true) ∧
      matchSegments e.segments path' = some c.2 := by
  obtain ⟨e', params⟩ := c
  have hmatch : (matchSegments e.segments path').map (e, ·) = some (e', params) ↔
      e' = e ∧ matchSegments e.segments path' = some params := by
    simp only [Option.map_eq_some_iff, Prod.mk.injEq]
    exact ⟨fun ⟨_, hm, he, hp⟩ => ⟨he.symm, hp ▸ hm⟩, fun ⟨he, hm⟩ => ⟨params, hm, he.symm, rfl⟩⟩
  unfold candidate
  cases hs : servesMethod (method e.row) requested with
  | false => simp
  | true =>
    cases reserved with
    | none => simpa using hmatch
    | some start =>
      cases hu : isUnder (path e.row) start with
      | false => simp [hu]
      | true => simpa [hu] using hmatch

/-- What compiling an accepted table gives: the segments are the row's own, and no two
    endpoints clash. -/
structure WellFormed (table : CompiledEndpointTable Row) : Prop where
  parsed : ∀ e ∈ table.endpoints, parsePattern (path e.row) = .ok e.segments
  distinct : table.endpoints.Pairwise (fun a b => ¬ Clash a b)

theorem compileRow_eq_some {e : CompiledEndpoint Row} :
    compileRow row = some e ↔ e.row = row ∧ parsePattern (path row) = .ok e.segments := by
  unfold compileRow
  cases h : parsePattern (path row) with
  | error problem => simp
  | ok segments =>
    obtain ⟨row', segments'⟩ := e
    simp [eq_comm]

theorem wellFormed_of_accepted (h : Accepted table) : WellFormed (compiledTable table) := by
  refine ⟨?_, h.distinct⟩
  intro e he
  obtain ⟨row, -, hc⟩ := List.mem_filterMap.mp he
  obtain ⟨rfl, hp⟩ := (compileRow_eq_some).mp hc
  exact hp

/-- No two candidates of one request compare equal. -/
theorem candidates_distinct {table : CompiledEndpointTable Row} (hw : WellFormed table) (requested rawPath : String) :
    (candidates table requested rawPath).Pairwise (fun a b => ranks a.1.segments ≠ ranks b.1.segments) := by
  unfold candidates
  rw [List.pairwise_filterMap]
  refine hw.distinct.imp_of_mem ?_
  intro a b ha hb hno c hc c' hc' hr
  obtain ⟨rfl, hs, -, hm⟩ := (candidate_eq_some).mp hc
  obtain ⟨rfl, hs', -, hm'⟩ := (candidate_eq_some).mp hc'
  refine hno ⟨?_, methodsOverlap_of_serves hs hs'⟩
  exact shape_eq_of_match (parsePattern_endsAtWildcard (hw.parsed _ ha)) (parsePattern_endsAtWildcard (hw.parsed _ hb)) hr
    (Option.isSome_of_eq_some hm) (Option.isSome_of_eq_some hm')

theorem competition_not_tied {table : CompiledEndpointTable Row} (hw : WellFormed table) (requested rawPath : String) :
    (competition table requested rawPath).tied = false := by
  rw [competition_eq_scan]
  exact Select.scan_not_tied compares_specificity (candidates_distinct hw requested rawPath)

theorem planEndpoint_nonCanonical (table : CompiledEndpointTable Row) (requested rawPath : String) :
    planEndpoint table requested rawPath = .nonCanonical ↔ isCanonicalPath rawPath = false := by
  unfold planEndpoint
  cases isCanonicalPath rawPath with
  | false => simp
  | true =>
    simp only [Bool.not_true, Bool.false_eq_true, Bool.true_eq_false, if_false, iff_false]
    intro h
    split at h
    · cases h
    · split at h <;> cases h

section
variable {table : CompiledEndpointTable Row} (hw : WellFormed table) (hc : isCanonicalPath rawPath = true)
include hw hc

theorem planEndpoint_noEndpoint :
    planEndpoint table requested rawPath = .noEndpoint ↔ candidates table requested rawPath = [] := by
  rw [← Select.scan_best_eq_none compares_specificity, ← competition_eq_scan]
  unfold planEndpoint
  simp only [hc, competition_not_tied hw]
  cases (competition table requested rawPath).best <;> simp

theorem planEndpoint_endpoint {params : Params} :
    planEndpoint table requested rawPath = .endpoint row params ↔
      ∃ c ∈ candidates table requested rawPath, (c.1.row = row ∧ c.2 = params) ∧
        ∀ c' ∈ candidates table requested rawPath, c' ≠ c → bySpecificity c c' < 0 := by
  have hbest : planEndpoint table requested rawPath = .endpoint row params ↔
      ∃ c, (competition table requested rawPath).best = some c ∧ c.1.row = row ∧ c.2 = params := by
    unfold planEndpoint
    simp only [hc, competition_not_tied hw]
    cases (competition table requested rawPath).best <;> simp
  rw [hbest, competition_eq_scan]
  simp only [Select.scan_best_eq_some compares_specificity (candidates_distinct hw requested rawPath)]
  exact ⟨fun ⟨c, ⟨hm, hs⟩, he⟩ => ⟨c, hm, he, hs⟩, fun ⟨c, hm, he, hs⟩ => ⟨c, ⟨hm, hs⟩, he⟩⟩

end

/-! ## The table's own words -/

def patternOf (row : Row) : List Segment :=
  match parsePattern (path row) with
  | .ok segments => segments
  | .error _ => []

/-- `row` competes for the request: it serves the method, matches the path and, where the
    path lies under a reserved prefix, lies under the longest one itself. -/
structure Competes (table : EndpointPatternTable Row) (requested rawPath : String) (row : Row) : Prop where
  mem : row ∈ table.endpoints
  serves : servesMethod (method row) requested = true
  fits : (matchSegments (patternOf row) (splitPath rawPath)).isSome
  reserved : ∀ start, Longest rawPath table.reservedPrefixes start → isUnder (path row) start = true

/-- `row` competes and is strictly more specific than every other row that does. -/
structure MostSpecific (table : EndpointPatternTable Row) (requested rawPath : String) (row : Row) : Prop where
  competes : Competes table requested rawPath row
  below : ∀ other, Competes table requested rawPath other → other ≠ row →
    compareSpecificity (patternOf row) (patternOf other) < 0

theorem mem_candidates (ha : Accepted table) :
    c ∈ candidates (compiledTable table) requested rawPath ↔
      Competes table requested rawPath c.1.row ∧ c.1.segments = patternOf c.1.row ∧
        matchSegments (patternOf c.1.row) (splitPath rawPath) = some c.2 := by
  simp only [candidates, compiledTable, List.mem_filterMap, candidate_eq_some, longestPrefixOf_eq_some]
  constructor
  · rintro ⟨e, ⟨row, hrow, hcomp⟩, rfl, hs, hr, hm⟩
    obtain ⟨rfl, hp⟩ := (compileRow_eq_some).mp hcomp
    have hpat : c.1.segments = patternOf c.1.row := by simp only [patternOf, hp]
    rw [hpat] at hm
    exact ⟨⟨hrow, hs, Option.isSome_of_eq_some hm, hr⟩, hpat, hm⟩
  · rintro ⟨⟨hrow, hs, -, hr⟩, hpat, hm⟩
    obtain ⟨e, he⟩ := Option.isSome_iff_exists.mp (ha.parses _ hrow)
    obtain ⟨herow, hp⟩ := (compileRow_eq_some).mp he
    refine ⟨c.1, ⟨c.1.row, hrow, (compileRow_eq_some).mpr ⟨rfl, ?_⟩⟩, rfl, hs, hr, by rw [hpat]; exact hm⟩
    simp only [hpat, patternOf, hp]

theorem accepted_perm {table table' : EndpointPatternTable Row} (hrows : table.endpoints.Perm table'.endpoints)
    (hstarts : table.reservedPrefixes.Perm table'.reservedPrefixes) (ha : Accepted table) : Accepted table' where
  ids := (hrows.map id).nodup_iff.mp ha.ids
  parses row h := ha.parses row (hrows.mem_iff.mpr h)
  distinct := (hrows.filterMap compileRow).pairwise ha.distinct
    (fun h hc => h ⟨hc.1.symm, by rw [methodsOverlap_comm]; exact hc.2⟩)
  reserved start h := ha.reserved start (hstarts.mem_iff.mpr h)
  once := hstarts.nodup_iff.mp ha.once

theorem planEndpoint_perm {table' : EndpointPatternTable Row} (hrows : table.endpoints.Perm table'.endpoints)
    (hstarts : table.reservedPrefixes.Perm table'.reservedPrefixes) (ha : Accepted table) (requested rawPath : String) :
    planEndpoint (compiledTable table') requested rawPath = planEndpoint (compiledTable table) requested rawPath := by
  have hw := wellFormed_of_accepted ha
  have hw' := wellFormed_of_accepted (accepted_perm hrows hstarts ha)
  have hc : (candidates (compiledTable table) requested rawPath).Perm (candidates (compiledTable table') requested rawPath) := by
    unfold candidates compiledTable
    rw [longestPrefixOf_perm hstarts]
    exact (hrows.filterMap compileRow).filterMap _
  have hcomp : competition (compiledTable table') requested rawPath = competition (compiledTable table) requested rawPath := by
    refine Select.Scan.ext ?_ ?_
    · rw [competition_eq_scan, competition_eq_scan]
      exact (Select.scan_best_perm compares_specificity hc (candidates_distinct hw requested rawPath)).symm
    · rw [competition_not_tied hw, competition_not_tied hw']
  simp only [planEndpoint, hcomp]

theorem competes_iff_candidate (ha : Accepted table) : Competes table requested rawPath row ↔
      ∃ c ∈ candidates (compiledTable table) requested rawPath, c.1.row = row := by
  constructor
  · intro hc
    obtain ⟨params, hm⟩ := Option.isSome_iff_exists.mp hc.fits
    exact ⟨(⟨row, patternOf row⟩, params), (mem_candidates ha).mpr ⟨hc, rfl, hm⟩, rfl⟩
  · rintro ⟨c, hmem, rfl⟩
    exact ((mem_candidates ha).mp hmem).1

theorem candidate_eq_of_row (ha : Accepted table) {c' : CompiledEndpoint Row × Params}
    (hc : c ∈ candidates (compiledTable table) requested rawPath)
    (hc' : c' ∈ candidates (compiledTable table) requested rawPath) (hr : c.1.row = c'.1.row) : c = c' := by
  obtain ⟨-, hs, hm⟩ := (mem_candidates ha).mp hc
  obtain ⟨-, hs', hm'⟩ := (mem_candidates ha).mp hc'
  obtain ⟨⟨row, segments⟩, params⟩ := c
  obtain ⟨⟨row', segments'⟩, params'⟩ := c'
  obtain rfl : row = row' := hr
  rw [hm] at hm'
  cases hm'
  rw [show segments = segments' from hs.trans hs'.symm]

section
variable (ha : Accepted table) (hc : isCanonicalPath rawPath = true)
include ha hc

theorem planEndpoint_eq_endpoint {params : Params} :
    planEndpoint (compiledTable table) requested rawPath = .endpoint row params ↔
      MostSpecific table requested rawPath row ∧ matchSegments (patternOf row) (splitPath rawPath) = some params := by
  rw [planEndpoint_endpoint (wellFormed_of_accepted ha) hc]
  constructor
  · rintro ⟨c, hmem, ⟨rfl, rfl⟩, hbelow⟩
    obtain ⟨hcomp, hseg, hm⟩ := (mem_candidates ha).mp hmem
    refine ⟨⟨hcomp, ?_⟩, hm⟩
    intro other ho hne
    obtain ⟨c', hmem', rfl⟩ := (competes_iff_candidate ha).mp ho
    obtain ⟨-, hseg', -⟩ := (mem_candidates ha).mp hmem'
    have := hbelow c' hmem' (fun e => hne (by rw [e]))
    rwa [bySpecificity, hseg, hseg'] at this
  · rintro ⟨⟨hcomp, hbelow⟩, hm⟩
    have hmem := (mem_candidates ha (c := (⟨row, patternOf row⟩, params))).mpr ⟨hcomp, rfl, hm⟩
    refine ⟨_, hmem, ⟨rfl, rfl⟩, ?_⟩
    intro c' hmem' hne
    obtain ⟨hcomp', hseg', -⟩ := (mem_candidates ha).mp hmem'
    have hrow : c'.1.row ≠ row := fun e => hne (candidate_eq_of_row ha hmem' hmem e)
    rw [bySpecificity, hseg']
    exact hbelow _ hcomp' hrow

theorem planEndpoint_eq_noEndpoint :
    planEndpoint (compiledTable table) requested rawPath = .noEndpoint ↔ ∀ row, ¬ Competes table requested rawPath row := by
  rw [planEndpoint_noEndpoint (wellFormed_of_accepted ha) hc, List.eq_nil_iff_forall_not_mem]
  constructor
  · intro h row hcomp
    obtain ⟨c, hmem, -⟩ := (competes_iff_candidate ha).mp hcomp
    exact h c hmem
  · intro h c hmem
    exact h c.1.row ((competes_iff_candidate ha).mpr ⟨c, hmem, rfl⟩)

theorem mostSpecific_unique (hsome : ∃ row, Competes table requested rawPath row) :
    ∃! row, MostSpecific table requested rawPath row := by
  cases hp : planEndpoint (compiledTable table) requested rawPath with
  | nonCanonical => rw [planEndpoint_nonCanonical, hc] at hp; cases hp
  | noEndpoint =>
    obtain ⟨row, hr⟩ := hsome
    exact absurd hr ((planEndpoint_eq_noEndpoint ha hc).mp hp row)
  | endpoint row params =>
    refine ⟨row, ((planEndpoint_eq_endpoint ha hc).mp hp).1, ?_⟩
    intro other ho
    obtain ⟨params', hm⟩ := Option.isSome_iff_exists.mp ho.competes.fits
    have := (planEndpoint_eq_endpoint ha hc).mpr ⟨ho, hm⟩
    rw [hp] at this
    cases this
    rfl

end

/-- For every accepted table, method and raw path: a path that is not canonical is
    refused; otherwise the plan is the one row strictly more specific than every other
    that competes, or no endpoint where none competes. The tie flag never stays set, and
    neither the order of the rows nor that of the reserved prefixes matters. -/
theorem planEndpoint_selects_most_specific {table : EndpointPatternTable Row} {compiled : CompiledEndpointTable Row}
    (h : compileEndpointTable table = .ok compiled) :
    (∀ requested rawPath, planEndpoint compiled requested rawPath = .nonCanonical ↔ isCanonicalPath rawPath = false) ∧
    (∀ requested rawPath, isCanonicalPath rawPath = true →
      (planEndpoint compiled requested rawPath = .noEndpoint ↔ ∀ row, ¬ Competes table requested rawPath row) ∧
      (∀ row params, planEndpoint compiled requested rawPath = .endpoint row params ↔
        MostSpecific table requested rawPath row ∧ matchSegments (patternOf row) (splitPath rawPath) = some params) ∧
      ((∃ row, Competes table requested rawPath row) → ∃! row, MostSpecific table requested rawPath row)) ∧
    (∀ requested rawPath, (competition compiled requested rawPath).tied = false) ∧
    (∀ table' : EndpointPatternTable Row, table.endpoints.Perm table'.endpoints →
      table.reservedPrefixes.Perm table'.reservedPrefixes →
      ∃ compiled', compileEndpointTable table' = .ok compiled' ∧
        ∀ requested rawPath, planEndpoint compiled' requested rawPath = planEndpoint compiled requested rawPath) := by
  obtain ⟨ha, rfl⟩ := (compile_ok_iff table compiled).mp h
  have hw := wellFormed_of_accepted ha
  refine ⟨planEndpoint_nonCanonical _, ?_, competition_not_tied hw, ?_⟩
  · intro requested rawPath hc
    exact ⟨planEndpoint_eq_noEndpoint ha hc, fun _ _ => planEndpoint_eq_endpoint ha hc, mostSpecific_unique ha hc⟩
  · intro table' hrows hstarts
    exact ⟨_, (compile_ok_iff table' _).mpr ⟨accepted_perm hrows hstarts ha, rfl⟩,
      planEndpoint_perm hrows hstarts ha⟩

end

/-- A row that carries its pattern only. -/
structure PatternRow where
  id : String
  method : EndpointMethod
  path : String
  deriving DecidableEq

instance : EndpointPattern PatternRow := ⟨PatternRow.id, PatternRow.method, PatternRow.path⟩

def sampleTable : EndpointPatternTable PatternRow :=
  ⟨[⟨"page", .get, "/*"⟩, ⟨"note", .any, "/notes/:id"⟩, ⟨"new", .get, "/notes/new"⟩], ["/notes"]⟩

/-- `/notes/new` is the literal row's, not the parameter's or the wildcard's. -/
theorem sampleTable_selects_literal :
    planEndpoint (compiledTable sampleTable) "GET" "/notes/new" = .endpoint ⟨"new", .get, "/notes/new"⟩ [] ∧
      ∃! row, MostSpecific sampleTable "GET" "/notes/new" row := by
  have hplan : planEndpoint (compiledTable sampleTable) "GET" "/notes/new" = .endpoint ⟨"new", .get, "/notes/new"⟩ [] := by
    decide +kernel
  have hsel :=
    planEndpoint_selects_most_specific (show compileEndpointTable sampleTable = .ok (compiledTable sampleTable) by decide +kernel)
  have hc : isCanonicalPath "/notes/new" = true := by decide +kernel
  have hrow := ((hsel.2.1 "GET" "/notes/new" hc).2.1 _ _).mp hplan
  exact ⟨hplan, (hsel.2.1 "GET" "/notes/new" hc).2.2 ⟨_, hrow.1.competes⟩⟩

end Fabrika.AuthCore.Endpoints
