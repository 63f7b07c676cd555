/-
  Fabrika.Control.ProbePrefixes — the probe paths under reserved prefixes (see
  `Fabrika.Control.ProbeProofs`).

  A probe path stands for a path in the eyes of the endpoints: the same patterns match both. What
  a table answers depends on its reserved prefixes too, and `probePaths` reads none. So the
  retelling of a path stands for it exactly where it keeps its place among the prefixes
  (`retelling_stands_iff`): it meets no prefix that holds the fresh segment by chance, and loses
  none that no endpoint's path spells. Some probe stands for a path exactly where a path with its
  answers keeps its place (`probes_stand_iff`).
-/

import Fabrika.Control.ProbeProofs

namespace Fabrika.Control

open Fabrika.Lib Fabrika.AuthCore.Paths
open Fabrika.AuthCore.Endpoints

/-! ## The walk ends by itself -/

/-- Neither loop of `probePaths` turns more often than the model lets it. -/
def Terminates (pattern : String) (patterns : List String) : Prop :=
  let literals := literalsOf (pattern :: patterns)
  let all := (pattern :: patterns).map splitPath
  (∀ turns, literals.length ≤ turns → growFresh literals turns "x" = freshSegment literals) ∧
    freshSegment literals ∉ literals ∧
    ∀ depth, longest all + 2 ≤ depth →
      extendPaths (splitPath pattern) (freshSegment literals) depth [] all =
        extendPaths (splitPath pattern) (freshSegment literals) (longest all + 2) [] all

section
variable {own taken : List String} {all live : List (List String)} {fresh : String}

theorem stops_past_longest (hlive : ∀ s ∈ live, s ∈ all ∧ Alive s taken) (hlong : longest all < taken.length) :
    probeStops own taken live = true := by
  have hall : live.all (fun segments => endsBefore segments taken.length) = true := by
    rw [List.all_eq_true]
    intro s hs
    have := length_le_longest (hlive s hs).1
    exact endsBefore_of_alive (hlive s hs).2 (by omega)
  simp [probeStops, hall]

theorem live_filter (hlive : ∀ s ∈ live, s ∈ all ∧ Alive s taken) (v : String) :
    ∀ s ∈ live.filter (fun segments => mayMatch segments taken.length v), s ∈ all ∧ Alive s (taken ++ [v]) := by
  intro s hs
  obtain ⟨hmem, hmay⟩ := List.mem_filter.mp hs
  exact ⟨(hlive s hmem).1, alive_append.mpr ⟨(hlive s hmem).2, hmay⟩⟩

/-- More depth than the longest pattern asks for changes nothing. -/
theorem extendPaths_enough {depth : Nat} (hlive : ∀ s ∈ live, s ∈ all ∧ Alive s taken)
    (hdepth : longest all + 2 ≤ taken.length + depth) (hfuel : taken.length ≤ longest all + 1) (more : Nat) :
    extendPaths own fresh (depth + more) taken live = extendPaths own fresh depth taken live := by
  induction depth generalizing taken live with
  | zero => omega
  | succ depth ih =>
    rw [show depth + 1 + more = depth + more + 1 by omega, extendPaths, extendPaths]
    congr 1
    cases hstop : probeStops own taken live with
    | true => rfl
    | false =>
      have hroom : taken.length ≤ longest all := by
        by_contra hlong
        rw [stops_past_longest hlive (by omega)] at hstop
        cases hstop
      simp only [Bool.false_eq_true, if_false]
      have hnext : ∀ v, extendPaths own fresh (depth + more) (taken ++ [v])
            (live.filter fun segments => mayMatch segments taken.length v) =
          extendPaths own fresh depth (taken ++ [v]) (live.filter fun segments => mayMatch segments taken.length v) := by
        intro v
        have hlen : (taken ++ [v]).length = taken.length + 1 := by simp
        exact ih (live_filter hlive v) (by omega) (by omega)
      simp only [hnext]

end

theorem probePaths_terminates (pattern : String) (patterns : List String) : Terminates pattern patterns := by
  refine ⟨?_, ?_, ?_⟩
  · intro turns hturns
    exact firstFree_unique (growFresh_firstFree hturns) (freshSegment_firstFree _)
  · obtain ⟨n, -, hfree, -⟩ := freshSegment_firstFree (literalsOf (pattern :: patterns))
    exact hfree
  · intro depth hdepth
    obtain ⟨more, rfl⟩ := Nat.exists_eq_add_of_le hdepth
    exact extendPaths_enough (fun s hs => ⟨hs, by simp [Alive]⟩) (by simp) (Nat.zero_le _) more

/-! ## A probe is its own retelling -/

section
variable {own taken : List String} {all live : List (List String)} {fresh : String}

/-- A value the walk tries is told as itself. -/
theorem retoldSegment_of_tried {i : Nat} {v : String} (hown : own ∈ live) (hv : v ∈ probeValues own fresh i live) :
    retoldSegment fresh live i v = v := by
  have hother : v ∈ (literalsAt own i live).eraseDups ++ [fresh] ++ (if pastWildcard own i && 0 < i then [""] else []) →
      retoldSegment fresh live i v = v := by
    intro hmem
    simp only [List.mem_append, List.mem_eraseDups, List.mem_singleton, List.mem_ite_nil_right] at hmem
    unfold retoldSegment
    by_cases hempty : v = ""
    · simp [hempty]
    · rcases hmem with (hlit | rfl) | ⟨-, rfl⟩
      · simp [(mem_literalsAt hempty).mp hlit]
      · split <;> rfl
      · exact absurd rfl hempty
  unfold probeValues at hv
  cases hmine : own[i]? with
  | none =>
    rw [hmine] at hv
    exact hother hv
  | some mine =>
    rw [hmine] at hv
    dsimp only at hv
    split at hv
    · rename_i hlit
      obtain rfl : v = mine := by simpa using hv
      have hspelled : spelled live i v = true := spelled_iff.mpr ⟨hlit, own, hown, hmine⟩
      simp [retoldSegment, hspelled]
    · exact hother hv

/-- A segment the walk can put into a path. -/
def Offered (all : List (List String)) (fresh v : String) : Prop := (∃ s ∈ all, v ∈ s) ∨ v = fresh ∨ v = ""

theorem offered_of_tried {i : Nat} {v : String} (hown : own ∈ all) (hlive : ∀ s ∈ live, s ∈ all)
    (hv : v ∈ probeValues own fresh i live) : Offered all fresh v := by
  have hother : v ∈ (literalsAt own i live).eraseDups ++ [fresh] ++ (if pastWildcard own i && 0 < i then [""] else []) →
      Offered all fresh v := by
    intro hmem
    simp only [List.mem_append, List.mem_eraseDups, List.mem_singleton, List.mem_ite_nil_right] at hmem
    rcases hmem with (hlit | rfl) | ⟨-, rfl⟩
    · by_cases hempty : v = ""
      · exact .inr (.inr hempty)
      · obtain ⟨-, s, hs, hi⟩ := spelled_iff.mp ((mem_literalsAt hempty).mp hlit)
        exact .inl ⟨s, hlive s hs, List.mem_of_getElem? hi⟩
    · exact .inr (.inl rfl)
    · exact .inr (.inr rfl)
  unfold probeValues at hv
  cases hmine : own[i]? with
  | none =>
    rw [hmine] at hv
    exact hother hv
  | some mine =>
    rw [hmine] at hv
    dsimp only at hv
    split at hv
    · obtain rfl : v = mine := by simpa using hv
      exact .inl ⟨own, hown, List.mem_of_getElem? hmine⟩
    · exact hother hv

/-- What the walk puts behind `taken` is told as itself, where its own pattern may match it. -/
theorem retold_of_extendPaths {depth : Nat} {q : String} (hown : own ∈ all)
    (hlive : ∀ s, s ∈ live ↔ s ∈ all ∧ Alive s taken) (hq : q ∈ extendPaths own fresh depth taken live) :
    ∃ rest, q = pathOf (taken ++ rest) ∧ (∀ v ∈ rest, Offered all fresh v) ∧
      (Alive own (taken ++ rest) → retold fresh live taken.length rest = rest) := by
  induction depth generalizing taken live with
  | zero => cases hq
  | succ depth ih =>
    rw [extendPaths] at hq
    rcases List.mem_cons.mp hq with rfl | hq
    · exact ⟨[], by rw [List.append_nil], by simp, fun _ => rfl⟩
    · cases hstop : probeStops own taken live with
      | true => simp [hstop] at hq
      | false =>
        simp only [hstop, Bool.false_eq_true, if_false, List.mem_flatMap, List.mem_eraseDups] at hq
        obtain ⟨v, hv, hq⟩ := hq
        obtain ⟨rest, rfl, hoffered, htold⟩ := ih (fun s => by rw [List.mem_filter, hlive, alive_append, and_assoc]) hq
        rw [List.append_assoc, List.singleton_append] at htold ⊢
        refine ⟨v :: rest, rfl, ?_, ?_⟩
        · intro w hw
          rcases List.mem_cons.mp hw with rfl | hw
          · exact offered_of_tried hown (fun s hs => ((hlive s).mp hs).1) hv
          · exact hoffered w hw
        · intro halive
          have hmem : own ∈ live := by
            refine (hlive own).mpr ⟨hown, ?_⟩
            have htake := alive_take halive taken.length
            rwa [List.take_left] at htake
          have hnot : live.all (fun segments => endsBefore segments taken.length) = false := by
            simp only [probeStops, Bool.or_eq_false_iff] at hstop
            exact hstop.2
          have hrest := htold halive
          rw [List.length_append, List.length_singleton] at hrest
          rw [retold, hnot, if_neg Bool.false_ne_true, retoldSegment_of_tried hmem hv, hrest]

end

/-- A probe its own pattern matches is its own retelling. -/
theorem retelling_probe {pattern q : String} {patterns : List String} {segments : List Segment}
    (hcanonical : ∀ other ∈ pattern :: patterns, isCanonicalPath other = true) (hp : parsePattern pattern = .ok segments)
    (hmatch : (matchSegments segments (splitPath q)).isSome) (hq : q ∈ probePaths pattern patterns) :
    retelling (pattern :: patterns) q = q := by
  obtain ⟨rfl, hown⟩ := parsed_eq hp
  rw [matchSegments, matchFrom_iff hown] at hmatch
  rw [probePaths, List.mem_eraseDups] at hq
  have hlive : ∀ s, s ∈ (pattern :: patterns).map splitPath ↔ s ∈ (pattern :: patterns).map splitPath ∧ Alive s [] :=
    fun s => ⟨fun h => ⟨h, by simp [Alive]⟩, fun h => h.1⟩
  have hmem : splitPath pattern ∈ (pattern :: patterns).map splitPath := List.mem_cons_self
  obtain ⟨t, rfl, hoffered, htold⟩ := retold_of_extendPaths hmem hlive hq
  rw [List.nil_append] at htold hmatch ⊢
  by_cases hroot : t = [""]
  · subst hroot
    have hsplit : splitPath (pathOf [""]) = [] := by decide
    rw [retelling, retoldSegments, hsplit, retold]
    decide
  · have hslash : ∀ s ∈ t, '/' ∉ s.toList := by
      intro s hs
      rcases hoffered s hs with ⟨other, hother, hmem⟩ | rfl | rfl
      · obtain ⟨o, ho, rfl⟩ := List.mem_map.mp hother
        exact ((plain_of_canonical (hcanonical o ho)).1 s hmem).slash
      · exact (plain_fresh _).slash
      · simp
    have hsplit : splitPath (pathOf t) = t := splitPath_join hroot hslash
    rw [hsplit] at hmatch
    rw [retelling, retoldSegments, hsplit]
    exact congrArg pathOf (htold hmatch.1)

/-! ## The answers of the tables -/

section
variable {Row : Type} [EndpointPattern Row] {first second : EndpointPatternTable Row} {row : Row} {p : String}

def rowPaths (first second : EndpointPatternTable Row) : List String := (first.endpoints ++ second.endpoints).map path

/-- `q` gets `row` from the first table, and from the second the outcome and the row of `p`. -/
structure Stands (first second : CompiledEndpointTable Row) (row : Row) (p q : String) : Prop where
  selects : answer (planEndpoint first (method row).text q) = .endpoint row []
  agrees : answer (planEndpoint second (method row).text q) = answer (planEndpoint second (method row).text p)

/-- The path keeps its place among the reserved prefixes when it is retold: none of the first
    table's keeps the retelling off `row`, and the second's keep the retelling off the row that
    suits it best where they keep the path off it. -/
structure KeepsPlace (first second : EndpointPatternTable Row) (row : Row) (p : String) : Prop where
  own : ¬ KeptOff first.reservedPrefixes (retelling (path row :: rowPaths first second) p) row
  best : ∀ other, MostSpecific (unreserved second) (method row).text p other →
    (KeptOff second.reservedPrefixes (retelling (path row :: rowPaths first second) p) other ↔
      KeptOff second.reservedPrefixes p other)

variable {r : Row}

theorem parsePattern_of_compileRow (h : (compileRow r).isSome) : parsePattern (path r) = .ok (patternOf r) := by
  obtain ⟨e, he⟩ := Option.isSome_iff_exists.mp h
  obtain ⟨-, hparse⟩ := compileRow_eq_some.mp he
  rw [patternOf, hparse]

theorem mem_rowPaths_first (h : r ∈ first.endpoints) : path r ∈ rowPaths first second :=
  List.mem_map.mpr ⟨r, List.mem_append_left _ h, rfl⟩

theorem mem_rowPaths_second (h : r ∈ second.endpoints) : path r ∈ rowPaths first second :=
  List.mem_map.mpr ⟨r, List.mem_append_right _ h, rfl⟩

theorem retelling_stands_iff (hfirst : Accepted first) (hsecond : Accepted second) (hp : isCanonicalPath p = true)
    (hrow : MostSpecific first (method row).text p row) :
    Stands (AuthCore.Endpoints.compiledTable first) (AuthCore.Endpoints.compiledTable second) row p
      (retelling (path row :: rowPaths first second) p) ↔ KeepsPlace first second row p := by
  have hparse := parsePattern_of_compileRow (hfirst.parses row hrow.competes.mem)
  have hfits := hrow.competes.fits
  obtain ⟨hq, -⟩ := retelling_canonical (rowPaths first second) hp hparse hfits
  have hsame : ∀ r : Row, path r ∈ rowPaths first second → (compileRow r).isSome →
      ((matchSegments (patternOf r) (splitPath (retelling (path row :: rowPaths first second) p))).isSome ↔
        (matchSegments (patternOf r) (splitPath p)).isSome) := by
    intro r hr hcompiles
    exact retelling_matches hp hparse hfits (List.mem_cons_of_mem _ hr) (parsePattern_of_compileRow hcompiles)
  have hfree : MostSpecific (unreserved first) (method row).text (retelling (path row :: rowPaths first second) p) row :=
    mostSpecific_unreserved_congr (fun r hr => hsame r (mem_rowPaths_first hr) (hfirst.parses r hr))
      ((mostSpecific_iff_unreserved hfirst hp).mp hrow).1
  have hbest : ∀ other, MostSpecific (unreserved second) (method row).text
        (retelling (path row :: rowPaths first second) p) other ↔
      MostSpecific (unreserved second) (method row).text p other := by
    intro other
    constructor
    · exact mostSpecific_unreserved_congr
        fun r hr => (hsame r (mem_rowPaths_second hr) (hsecond.parses r hr)).symm
    · exact mostSpecific_unreserved_congr fun r hr => hsame r (mem_rowPaths_second hr) (hsecond.parses r hr)
  have hone : answer (planEndpoint (AuthCore.Endpoints.compiledTable first) (method row).text
      (retelling (path row :: rowPaths first second) p)) = .endpoint row [] ↔
      ¬ KeptOff first.reservedPrefixes (retelling (path row :: rowPaths first second) p) row := by
    rw [answer_planEndpoint hfirst hq, mostSpecific_iff_unreserved hfirst hq]
    exact ⟨fun h => h.2, fun h => ⟨hfree, h⟩⟩
  have htwo : answer (planEndpoint (AuthCore.Endpoints.compiledTable second) (method row).text
      (retelling (path row :: rowPaths first second) p)) =
        answer (planEndpoint (AuthCore.Endpoints.compiledTable second) (method row).text p) ↔ _ :=
    answer_congr hsecond hp hq
  constructor
  · rintro ⟨h₁, h₂⟩
    refine ⟨hone.mp h₁, ?_⟩
    intro other hother
    have := htwo.mp h₂ other
    rw [mostSpecific_iff_unreserved hsecond hq, mostSpecific_iff_unreserved hsecond hp, hbest] at this
    simp only [hother, true_and] at this
    exact not_iff_not.mp this
  · rintro ⟨h₁, h₂⟩
    refine ⟨hone.mpr h₁, htwo.mpr ?_⟩
    intro other
    rw [mostSpecific_iff_unreserved hsecond hq, mostSpecific_iff_unreserved hsecond hp, hbest]
    exact and_congr_right fun hother => not_congr (h₂ other hother)

/-- A probe that answers `row` is its own retelling, so it keeps its place. -/
theorem probe_keepsPlace (hfirst : Accepted first) (hsecond : Accepted second) {q : String}
    (hq : q ∈ probePaths (path row) (rowPaths first second)) (hcanonical : isCanonicalPath q = true)
    (hrow : MostSpecific first (method row).text q row) : KeepsPlace first second row q := by
  have hpaths : ∀ other ∈ path row :: rowPaths first second, isCanonicalPath other = true := by
    intro other hother
    rcases List.mem_cons.mp hother with rfl | hother
    · exact canonical_of_compiles (hfirst.parses row hrow.competes.mem)
    · obtain ⟨r, hr, rfl⟩ := List.mem_map.mp hother
      rcases List.mem_append.mp hr with hr | hr
      · exact canonical_of_compiles (hfirst.parses r hr)
      · exact canonical_of_compiles (hsecond.parses r hr)
  have hsame := retelling_probe hpaths (parsePattern_of_compileRow (hfirst.parses row hrow.competes.mem))
    hrow.competes.fits hq
  refine ⟨?_, ?_⟩
  · rw [hsame]
    exact ((mostSpecific_iff_unreserved hfirst hcanonical).mp hrow).2
  · intro other _
    rw [hsame]

end

/-- For every two accepted tables, every row of the first and every path it answers there: the
    path's retelling is a probe, and stands for it exactly where the path keeps its place among
    the reserved prefixes; and some probe stands for it exactly where some path with its answers
    keeps its place. The enumeration ends for all patterns. -/
theorem probes_stand_iff {Row : Type} [EndpointPattern Row] :
    (∀ (first second : EndpointPatternTable Row) (f s : CompiledEndpointTable Row),
      compileEndpointTable first = .ok f → compileEndpointTable second = .ok s →
      ∀ (row : Row) (p : String) (params : Params), planEndpoint f (method row).text p = .endpoint row params →
        (retelling (path row :: rowPaths first second) p ∈ probePaths (path row) (rowPaths first second) ∧
          (Stands f s row p (retelling (path row :: rowPaths first second) p) ↔ KeepsPlace first second row p)) ∧
        ((∃ q ∈ probePaths (path row) (rowPaths first second), Stands f s row p q) ↔
          ∃ q, Stands f s row p q ∧ KeepsPlace first second row q)) ∧
    ∀ pattern patterns, Terminates pattern patterns := by
  refine ⟨?_, probePaths_terminates⟩
  intro first second f s hf hs row p params hplan
  obtain ⟨hfirst, rfl⟩ := (compile_ok_iff first f).mp hf
  obtain ⟨hsecond, rfl⟩ := (compile_ok_iff second s).mp hs
  have hselected : ∀ {q : String}, answer (planEndpoint (AuthCore.Endpoints.compiledTable first) (method row).text q) =
      .endpoint row [] → isCanonicalPath q = true ∧ MostSpecific first (method row).text q row := by
    intro q h
    have hcanonical : isCanonicalPath q = true := by
      by_contra hnot
      rw [(planEndpoint_nonCanonical _ _ _).mpr (by simpa using hnot)] at h
      cases h
    exact ⟨hcanonical, (answer_planEndpoint hfirst hcanonical row).mp h⟩
  have hreached : ∀ {q : String}, isCanonicalPath q = true → MostSpecific first (method row).text q row →
      retelling (path row :: rowPaths first second) q ∈ probePaths (path row) (rowPaths first second) := by
    intro q hq hrow
    exact (retelling_reached _ hq (parsePattern_of_compileRow (hfirst.parses row hrow.competes.mem)) hrow.competes.fits).1
  obtain ⟨hp, hrow⟩ := hselected (q := p) (by rw [hplan]; rfl)
  refine ⟨⟨hreached hp hrow, retelling_stands_iff hfirst hsecond hp hrow⟩, ?_⟩
  constructor
  · rintro ⟨q, hq, hstands⟩
    obtain ⟨hcanonical, hmost⟩ := hselected hstands.selects
    exact ⟨q, hstands, probe_keepsPlace hfirst hsecond hq hcanonical hmost⟩
  · rintro ⟨q, hstands, hkeeps⟩
    obtain ⟨hcanonical, hmost⟩ := hselected hstands.selects
    have htold := (retelling_stands_iff hfirst hsecond hcanonical hmost).mpr hkeeps
    exact ⟨_, hreached hcanonical hmost, htold.selects, htold.agrees.trans hstands.agrees⟩

/-- A parameterised page of an application that reserves `/x` without an endpoint under it, and
    the catch-all page that takes its place. -/
def sampleBefore : EndpointPatternTable PatternRow := ⟨[⟨"note", .get, "/:book/:note"⟩], ["/x"]⟩

def sampleAfter : EndpointPatternTable PatternRow := ⟨[⟨"page", .get, "/*"⟩], []⟩

/-- With another prefix reserved, the probe `/x/x` answers as `/a/b` does. -/
theorem another_prefix_hides_nothing :
    planEndpoint (AuthCore.Endpoints.compiledTable ⟨sampleBefore.endpoints, ["/shared"]⟩) "GET" "/a/b" =
      .endpoint (⟨"note", .get, "/:book/:note"⟩ : PatternRow) [("book", "a"), ("note", "b")] ∧
    ∃ q, Stands (AuthCore.Endpoints.compiledTable ⟨sampleBefore.endpoints, ["/shared"]⟩)
        (AuthCore.Endpoints.compiledTable sampleAfter) (⟨"note", .get, "/:book/:note"⟩ : PatternRow) "/a/b" q ∧
      KeepsPlace ⟨sampleBefore.endpoints, ["/shared"]⟩ sampleAfter ⟨"note", .get, "/:book/:note"⟩ q := by
  have hplan : planEndpoint (AuthCore.Endpoints.compiledTable ⟨sampleBefore.endpoints, ["/shared"]⟩) "GET" "/a/b" =
      .endpoint (⟨"note", .get, "/:book/:note"⟩ : PatternRow) [("book", "a"), ("note", "b")] := by decide
  refine ⟨hplan, ?_⟩
  refine ((probes_stand_iff).1 ⟨sampleBefore.endpoints, ["/shared"]⟩ sampleAfter _ _ (by decide)
    (by decide) ⟨"note", .get, "/:book/:note"⟩ "/a/b" _ hplan).2.mp ⟨"/x/x", by decide, ?_⟩
  exact ⟨by decide, by decide⟩

/-- The probes take `/x/x` for every path of two segments, and the prefix keeps it off the row
    that answers `/a/b`. -/
theorem a_reserved_fresh_segment_hides_the_row :
    compileEndpointTable sampleBefore = .ok (AuthCore.Endpoints.compiledTable sampleBefore) ∧
    compileEndpointTable sampleAfter = .ok (AuthCore.Endpoints.compiledTable sampleAfter) ∧
    planEndpoint (AuthCore.Endpoints.compiledTable sampleBefore) "GET" "/a/b" =
      .endpoint ⟨"note", .get, "/:book/:note"⟩ [("book", "a"), ("note", "b")] ∧
    ¬ ∃ q ∈ probePaths "/:book/:note" (rowPaths sampleBefore sampleAfter),
      Stands (AuthCore.Endpoints.compiledTable sampleBefore) (AuthCore.Endpoints.compiledTable sampleAfter)
        ⟨"note", .get, "/:book/:note"⟩ "/a/b" q := by
  have hprobes : probePaths "/:book/:note" (rowPaths sampleBefore sampleAfter) = ["/", "/x", "/x/x"] := by decide
  refine ⟨by decide, by decide, by decide, ?_⟩
  rintro ⟨q, hq, hstands⟩
  have hselects := hstands.selects
  rw [hprobes] at hq
  simp only [List.mem_cons, List.not_mem_nil, or_false] at hq
  rcases hq with rfl | rfl | rfl
  · revert hselects
    decide
  · revert hselects
    decide
  · revert hselects
    decide

end Fabrika.Control
