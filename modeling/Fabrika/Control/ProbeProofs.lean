/-
  Fabrika.Control.ProbeProofs — what the probe paths of an access classification stand for (see
  `Fabrika.Control.EndpointLines`).

  A pattern matches a path when it may match it segment by segment (`Alive`) and ends where the
  path does (`Complete`). The walk of `probePaths` can follow any path its own pattern matches
  and keep the same patterns alive: where no live pattern has the path's segment as a literal,
  the fresh one tells no pattern apart (`step_retold`). So for every path there is a probe, its
  retelling, that the same patterns match (`retelling_reached`, `retelling_matches`). The fresh
  segment is chosen among the literals of the patterns alone, so a reserved prefix may hold it.
-/

import Fabrika.AuthCore.PathsProofs
import Fabrika.Control.EndpointLines

namespace Fabrika.Control

open Fabrika.Lib Fabrika.AuthCore.Paths
open Fabrika.AuthCore.Endpoints (splitPath Segment matchFrom matchSegments parsePattern isReservedPrefix isUnder toSegment
  EndsAtWildcard PlainSegment reserved_parses reserved_segments starts_of_canonical canonical_of_parsePattern isUnder_iff
  splitPath_of_ne plain_of_canonical parsePattern_eq_map parsePattern_endsAtWildcard canonical_of_plain splitPath_join)

/-! ## Matching segment by segment -/

/-- The pattern may match a path that starts with `taken`. -/
def Alive (segments taken : List String) : Prop := ∀ i v, taken[i]? = some v → mayMatch segments i v = true

/-- The pattern ends after `n` segments, or passed its wildcard by then; `index` is how many
    stand before. -/
def CompleteFrom (index : Nat) (segments : List String) (n : Nat) : Prop :=
  if segments.getLast? = some "*" then segments.length ≤ n ∨ (index = 0 ∧ segments.length = 1) else segments.length = n

variable {rest : List String} {segment v : String} {segments : List Segment}

theorem alive_cons {taken : List String} (hw : segment ≠ "*") :
    Alive (segment :: rest) (v :: taken) ↔ mayMatch (segment :: rest) 0 v = true ∧ Alive rest taken := by
  have hlater : ∀ i w, mayMatch (segment :: rest) (i + 1) w = mayMatch rest i w := by
    intro i w
    unfold mayMatch endsBefore
    cases rest with
    | nil => simp [hw]
    | cons next rest => simp
  constructor
  · intro ha
    refine ⟨ha 0 v rfl, ?_⟩
    intro i w hi
    rw [← hlater]
    exact ha (i + 1) w hi
  · rintro ⟨hfirst, hrest⟩ i w hi
    cases i with
    | zero =>
      obtain rfl : v = w := by simpa using hi
      exact hfirst
    | succ i =>
      rw [hlater]
      exact hrest i w hi

theorem not_alive_nil {taken : List String} : Alive [] taken ↔ taken = [] := by
  constructor
  · intro h
    cases taken with
    | nil => rfl
    | cons v taken =>
      have := h 0 v rfl
      simp [mayMatch, endsBefore] at this
  · rintro rfl i v hi
    simp at hi

variable {literals : List String} {pattern : String}

theorem completeFrom_cons {index n : Nat} (hw : segment ≠ "*") :
    CompleteFrom index (segment :: rest) (n + 1) ↔ CompleteFrom (index + 1) rest n := by
  unfold CompleteFrom
  cases rest with
  | nil => simp [hw, eq_comm]
  | cons next rest => simp

theorem not_completeFrom_zero {index : Nat} (hw : segment ≠ "*") : ¬ CompleteFrom index (segment :: rest) 0 := by
  unfold CompleteFrom
  cases rest with
  | nil => simp [hw]
  | cons next rest => simp

theorem endsAtWildcard_tail (hw : segment ≠ "*") (hend : EndsAtWildcard ((segment :: rest).map toSegment)) :
    EndsAtWildcard (rest.map toSegment) := by
  rw [List.map_cons] at hend
  cases hs : toSegment segment with
  | wildcard =>
    unfold toSegment at hs
    rw [if_neg hw] at hs
    split at hs <;> cases hs
  | param name => rwa [hs] at hend
  | literal value => rwa [hs] at hend

theorem matchFrom_iff {segments : List String} (hend : EndsAtWildcard (segments.map toSegment)) (index : Nat)
    (path : List String) : (matchFrom index (segments.map toSegment) path).isSome ↔
      Alive segments path ∧ CompleteFrom index segments path.length := by
  induction segments generalizing index path with
  | nil =>
    rw [not_alive_nil]
    by_cases hp : path = [] <;> simp [matchFrom, CompleteFrom, hp]
  | cons segment rest ih =>
    by_cases hw : segment = "*"
    · subst hw
      have hwild : toSegment "*" = .wildcard := if_pos rfl
      rw [List.map_cons, hwild] at hend
      obtain rfl : rest = [] := by simpa [EndsAtWildcard] using hend
      have halive : Alive ["*"] path := by
        intro i v _
        cases i <;> simp [mayMatch, endsBefore]
      simp only [List.map_cons, List.map_nil, hwild, matchFrom, halive, true_and, CompleteFrom, List.getLast?_singleton,
        if_true, List.length_singleton]
      cases path with
      | nil => by_cases hi : index = 0 <;> simp [hi]
      | cons v path => simp
    · have hrest := endsAtWildcard_tail hw hend
      cases path with
      | nil =>
        have hnone : matchFrom index ((segment :: rest).map toSegment) [] = none := by
          rw [List.map_cons, toSegment, if_neg hw]
          by_cases hc : Text.startsWith segment ":" = true
          · rw [if_pos hc]; rfl
          · rw [if_neg hc]; rfl
        rw [hnone]
        simp [not_completeFrom_zero hw]
      | cons v path =>
        rw [List.length_cons, completeFrom_cons hw, alive_cons hw, List.map_cons, toSegment, if_neg hw]
        have hnext := ih hrest (index + 1) path
        by_cases hc : Text.startsWith segment ":" = true
        · rw [if_pos hc, matchFrom]
          have hmay : mayMatch (segment :: rest) 0 v = true ↔ v ≠ "" := by simp [mayMatch, hw, hc]
          by_cases hv : v = ""
          · rw [if_pos hv, hmay]
            simp [hv]
          · rw [if_neg hv, Option.isSome_map, hnext, hmay]
            simp only [ne_eq, hv, not_false_eq_true, true_and]
        · rw [if_neg hc, matchFrom]
          have hmay : mayMatch (segment :: rest) 0 v = true ↔ segment = v := by simp [mayMatch, hw, hc]
          by_cases hv : segment = v
          · rw [if_neg (by simpa using hv), hnext, hmay]
            simp only [hv, true_and]
          · rw [if_pos hv, hmay]
            simp [hv]

/-! ## The fresh segment -/

/-- `x`, `xx`, `xxx` and so on. -/
def xs (n : Nat) : String := String.ofList (List.replicate (n + 1) 'x')

theorem xs_injective : Function.Injective xs := by
  intro a b h
  have := congrArg (fun s : String => s.toList.length) h
  simpa [xs] using this

/-- The first of `x`, `xx`, `xxx`, … that is no literal. -/
def FirstFree (literals : List String) (fresh : String) : Prop :=
  ∃ n, fresh = xs n ∧ fresh ∉ literals ∧ ∀ m < n, xs m ∈ literals

theorem growFresh_eq (literals : List String) (turns k : Nat) : ∃ n, growFresh literals turns (xs k) = xs (k + n) ∧
    (∀ m < n, xs (k + m) ∈ literals) ∧ (xs (k + n) ∉ literals ∨ n = turns) := by
  induction turns generalizing k with
  | zero => exact ⟨0, rfl, by simp, .inr rfl⟩
  | succ turns ih =>
    by_cases hk : xs k ∈ literals
    · have hgrow : xs k ++ "x" = xs (k + 1) := by
        rw [← String.toList_inj, String.toList_append]
        simp [xs, List.replicate_succ']
      obtain ⟨n, hn, hbefore, hend⟩ := ih (k + 1)
      have hassoc : k + 1 + n = k + (n + 1) := by omega
      refine ⟨n + 1, ?_, ?_, ?_⟩
      · simp only [growFresh, List.contains_eq_mem, hk, decide_true, if_true, hgrow, hn, hassoc]
      · intro m hm
        cases m with
        | zero => exact hk
        | succ m =>
          have := hbefore m (by omega)
          rwa [show k + 1 + m = k + (m + 1) by omega] at this
      · rw [hassoc] at hend
        exact hend.imp id (by omega)
    · exact ⟨0, by simp [growFresh, hk], by simp, .inl hk⟩

theorem growFresh_firstFree {turns : Nat} (hturns : literals.length ≤ turns) :
    FirstFree literals (growFresh literals turns "x") := by
  obtain ⟨n, hn, hbefore, hend⟩ := growFresh_eq literals turns 0
  simp only [Nat.zero_add] at hn hbefore hend
  refine ⟨n, hn, ?_, hbefore⟩
  have hfresh : growFresh literals turns "x" = xs n := hn
  rw [hfresh]
  rcases hend with hend | rfl
  · exact hend
  · intro hlast
    -- One more text than the list has places.
    have hsub : (List.range (n + 1)).map xs ⊆ literals := by
      intro s hs
      obtain ⟨m, hm, rfl⟩ := List.mem_map.mp hs
      rw [List.mem_range] at hm
      by_cases hlt : m < n
      · exact hbefore m hlt
      · rwa [show m = n by omega]
    have hnodup := List.Nodup.map xs_injective (List.nodup_range (n := n + 1))
    have := (List.subperm_of_subset hnodup hsub).length_le
    rw [List.length_map, List.length_range] at this
    omega

theorem freshSegment_firstFree (literals : List String) : FirstFree literals (freshSegment literals) :=
  growFresh_firstFree (Nat.le_refl _)

theorem decodeDots_replicate (n : Nat) : decodeDots (List.replicate n 'x') = List.replicate n 'x' := by
  induction n with
  | zero => rfl
  | succ n ih => rw [List.replicate_succ, decodeDots, ih] <;> simp

theorem decodeChars_replicate (n : Nat) : Text.decodeChars n (List.replicate n 'x') = some (List.replicate n 'x') := by
  induction n with
  | zero => rfl
  | succ n ih => simp [List.replicate_succ, Text.decodeChars, ih]

theorem plain_xs (n : Nat) : PlainSegment (xs n) where
  slash := by simp [xs, List.mem_replicate]
  backslash := by simp [xs, List.mem_replicate]
  encoded := by
    rw [Bool.eq_false_iff]
    intro h
    obtain ⟨x, hx, hin⟩ := AuthCore.Endpoints.hasEncodedSeparator_iff.mp h
    have hpercent : '%' ∈ x := by
      simp only [AuthCore.Endpoints.encodedSeparators, List.mem_cons, List.not_mem_nil, or_false] at hx
      rcases hx with rfl | rfl | rfl | rfl <;> decide
    have := hin.subset hpercent
    simp [xs, List.mem_replicate] at this
  dot := by
    simp only [isDotSegment, xs, String.toList_ofList, decodeDots_replicate]
    simp [List.replicate_succ]
  decodable := by
    simp [isDecodable, Text.decodeURIComponent, xs, decodeChars_replicate]

theorem xs_ne_empty (n : Nat) : xs n ≠ "" := by
  intro h
  have := congrArg String.toList h
  simp [xs] at this

/-! ## The walk -/

section
variable {own taken : List String} {all live : List (List String)} {fresh : String} {q : List String}

/-- The walk's own pattern has no literal at `i`, so the segment there may vary. -/
def Varies (own : List String) (i : Nat) : Prop := ∀ segment, own[i]? = some segment → isLiteral segment = false

/-- What a walk along `q` keeps: each segment is the path's or the fresh one, and the same
    patterns are alive. -/
structure Along (own : List String) (all : List (List String)) (fresh : String) (q taken : List String) : Prop where
  within : taken.length ≤ q.length
  agrees : ∀ i v, taken[i]? = some v → q[i]? = some v ∨ v = fresh ∧ Varies own i
  same : ∀ s ∈ all, Alive s taken ↔ Alive s (q.take taken.length)

/-- The path the walk follows, and what it walks among. -/
structure Walk (own : List String) (all : List (List String)) (fresh : String) (q : List String) : Prop where
  mem : own ∈ all
  alive : Alive own q
  complete : CompleteFrom 0 own q.length
  ends : EndsAtWildcard (own.map toSegment)
  filled : ∀ s ∈ q.dropLast, s ≠ ""
  below : q ≠ [""]
  free : ∀ s ∈ all, ∀ segment ∈ s, isLiteral segment = true → segment ≠ fresh
  fresh : fresh ≠ ""

variable {s : List String} {i : Nat}

theorem alive_append : Alive s (taken ++ [v]) ↔ Alive s taken ∧ mayMatch s taken.length v = true := by
  constructor
  · intro h
    refine ⟨?_, h taken.length v (by simp)⟩
    intro i w hi
    have hlt : i < taken.length := (List.getElem?_eq_some_iff.mp hi).1
    exact h i w (by rw [List.getElem?_append_left hlt, hi])
  · rintro ⟨h, hlast⟩ i w hi
    by_cases hlt : i < taken.length
    · rw [List.getElem?_append_left hlt] at hi
      exact h i w hi
    · rw [List.getElem?_append_right (by omega), List.getElem?_singleton] at hi
      split at hi
      · obtain rfl : v = w := by simpa using hi
        rwa [show i = taken.length by omega]
      · cases hi

theorem alive_take (h : Alive s q) (n : Nat) : Alive s (q.take n) := by
  intro i v hi
  rw [List.getElem?_take] at hi
  split at hi
  · exact h i v hi
  · cases hi

theorem endsBefore_mono {j : Nat} (h : endsBefore s i = true) (hij : i ≤ j) : endsBefore s j = true := by
  simp only [endsBefore, Bool.and_eq_true, beq_iff_eq, decide_eq_true_eq] at h ⊢
  exact ⟨h.1, by omega⟩

theorem mayMatch_of_endsBefore (h : endsBefore s i = true) : mayMatch s i v = true := by
  have hlen : s.length ≤ i := by
    simp only [endsBefore, Bool.and_eq_true, decide_eq_true_eq] at h
    exact h.2
  rw [mayMatch, List.getElem?_eq_none hlen]
  exact h

theorem endsBefore_of_alive (h : Alive s taken) (hlen : s.length < taken.length) : endsBefore s taken.length = true := by
  have hlast := h (taken.length - 1) _ (List.getElem?_eq_getElem (by omega))
  rw [mayMatch, List.getElem?_eq_none (by omega)] at hlast
  exact endsBefore_mono hlast (by omega)

/-- A segment that no live pattern has as a literal does what the fresh one does. -/
theorem mayMatch_fresh (hv : v ≠ "") (hfresh : fresh ≠ "") (hfree : ∀ segment ∈ s, isLiteral segment = true → segment ≠ fresh)
    (hother : ∀ segment, s[i]? = some segment → isLiteral segment = true → segment ≠ v) :
    mayMatch s i fresh = mayMatch s i v := by
  unfold mayMatch
  cases hs : s[i]? with
  | none => rfl
  | some segment =>
    by_cases hw : segment = "*"
    · simp only [hw, if_true]
    · by_cases hc : Text.startsWith segment ":" = true
      · simp [hw, hc, bne_iff_ne.mpr hv, bne_iff_ne.mpr hfresh]
      · have hlit : isLiteral segment = true := by simp [isLiteral, hw, hc]
        have h₁ := hfree segment (List.mem_of_getElem? hs) hlit
        have h₂ := hother segment hs hlit
        simp [hw, hc, h₁, h₂]

theorem last_of_wildcard (hend : EndsAtWildcard (s.map toSegment)) (hi : s[i]? = some "*") :
    s.getLast? = some "*" ∧ s.length = i + 1 := by
  induction s generalizing i with
  | nil => simp at hi
  | cons segment rest ih =>
    by_cases hw : segment = "*"
    · subst hw
      obtain rfl : rest = [] := by simpa [EndsAtWildcard, toSegment] using hend
      cases i with
      | zero => simp
      | succ i => simp at hi
    · cases i with
      | zero => exact absurd (by simpa using hi) hw
      | succ i =>
        obtain ⟨hlast, hlen⟩ := ih (endsAtWildcard_tail hw hend) (by simpa using hi)
        cases rest with
        | nil => simp at hlast
        | cons next rest => exact ⟨by simpa using hlast, by simpa using hlen⟩

theorem filled_at (hw : Walk own all fresh q) (hi : i < q.length) (hlast : i + 1 < q.length ∨ i = 0) : q[i]? ≠ some "" := by
  intro he
  by_cases hmore : i + 1 < q.length
  · have hmem : "" ∈ q.dropLast := by
      apply List.mem_of_getElem? (i := i)
      rw [List.getElem?_dropLast, if_pos (by omega), he]
    exact hw.filled "" hmem rfl
  · obtain rfl : i = 0 := by omega
    apply hw.below
    cases q with
    | nil => simp at hi
    | cons v rest =>
      obtain rfl : rest = [] := by
        apply List.length_eq_zero_iff.mp
        simp only [List.length_cons] at hmore
        omega
      obtain rfl : v = "" := by simpa using he
      rfl

/-- Where the walk stops short of `q`, every live pattern passed its wildcard. -/
theorem ends_of_stops (hw : Walk own all fresh q) (ha : Along own all fresh q taken) (hshort : taken.length < q.length)
    (hlive : ∀ s, s ∈ live ↔ s ∈ all ∧ Alive s taken) (hstop : probeStops own taken live = true) :
    ∀ s ∈ all, Alive s taken → endsBefore s taken.length = true := by
  simp only [probeStops, Bool.or_eq_true, beq_iff_eq, Bool.and_eq_true, Bool.not_eq_true', List.all_eq_true] at hstop
  rcases hstop with (hslash | ⟨hpast, hwild⟩) | hall
  · -- A trailing `/` is the last segment of `q` too.
    rw [List.getLast?_eq_getElem?] at hslash
    have hlen : taken.length - 1 < taken.length := (List.getElem?_eq_some_iff.mp hslash).1
    rcases ha.agrees _ _ hslash with hq | ⟨hfresh, _⟩
    · exact absurd hq (filled_at hw (by omega) (.inl (by omega)))
    · exact absurd hfresh.symm hw.fresh
  · have hlen : own.length ≤ taken.length := by simpa using hpast
    have hcomplete := hw.complete
    unfold CompleteFrom at hcomplete
    simp only [pastWildcard, Bool.and_eq_false_iff, beq_eq_false_iff_ne, decide_eq_false_iff_not] at hwild
    split at hcomplete
    · rename_i hlast
      rcases hwild with hwild | hwild
      · exact absurd hlast hwild
      · omega
    · omega
  · intro s hs halive
    exact hall s ((hlive s).mpr ⟨hs, halive⟩)

theorem along_append (ha : Along own all fresh q taken) {w : String} (hq : q[taken.length]? = some w)
    (hv : v = w ∨ v = fresh ∧ Varies own taken.length)
    (hsame : ∀ s ∈ all, Alive s taken → mayMatch s taken.length v = mayMatch s taken.length w) :
    Along own all fresh q (taken ++ [v]) := by
  have hlt : taken.length < q.length := (List.getElem?_eq_some_iff.mp hq).1
  refine ⟨by rw [List.length_append, List.length_singleton]; omega, ?_, ?_⟩
  · intro i u hi
    by_cases hold : i < taken.length
    · rw [List.getElem?_append_left hold] at hi
      exact ha.agrees i u hi
    · have hi' : i = taken.length := by
        have := (List.getElem?_eq_some_iff.mp hi).1
        rw [List.length_append, List.length_singleton] at this
        omega
      subst hi'
      obtain rfl : v = u := by simpa using hi
      rcases hv with rfl | hv
      · exact .inl hq
      · exact .inr hv
  · intro s hs
    have htake : q.take (taken ++ [v]).length = q.take taken.length ++ [w] := by
      rw [List.length_append, List.length_singleton, List.take_add_one, hq]
      rfl
    have hlen : (q.take taken.length).length = taken.length := by
      rw [List.length_take]
      omega
    rw [htake, alive_append, alive_append, hlen, ← ha.same s hs]
    exact and_congr_right fun halive => by rw [hsame s hs halive]

/-- Whether a live pattern has `v` as its literal at `i`. -/
def spelled (live : List (List String)) (i : Nat) (v : String) : Bool :=
  live.any fun segments => segments[i]? == some v && isLiteral v

/-- A path's segment as the live patterns tell it: one that none of them spells is the fresh
    one, and an empty last segment stays. -/
def retoldSegment (fresh : String) (live : List (List String)) (i : Nat) (v : String) : String :=
  if v = "" || spelled live i v then v else fresh

/-- What is left of a path from `i` on, as the patterns tell it: cut where every live one has
    passed its wildcard. -/
def retold (fresh : String) (live : List (List String)) (i : Nat) : List String → List String
  | [] => []
  | v :: rest =>
    if live.all fun segments => endsBefore segments i then []
    else retoldSegment fresh live i v :: retold fresh (live.filter fun segments => mayMatch segments i v) (i + 1) rest

theorem spelled_iff : spelled live i v = true ↔ isLiteral v = true ∧ ∃ s ∈ live, s[i]? = some v := by
  simp only [spelled, List.any_eq_true, Bool.and_eq_true, beq_iff_eq]
  constructor
  · rintro ⟨s, hs, hi, hlit⟩
    exact ⟨hlit, s, hs, hi⟩
  · rintro ⟨hlit, s, hs, hi⟩
    exact ⟨s, hs, hi, hlit⟩

theorem mem_literalsAt (hv : v ≠ "") : v ∈ literalsAt own i live ↔ spelled live i v = true := by
  rw [spelled_iff, literalsAt, List.mem_flatMap]
  constructor
  · rintro ⟨s, hs, hmem⟩
    cases hi : s[i]? with
    | none => simp [hi] at hmem
    | some segment =>
      simp only [hi, List.mem_ite_nil_right, List.mem_singleton, Bool.and_eq_true] at hmem
      obtain ⟨⟨hlit, -⟩, rfl⟩ := hmem
      exact ⟨hlit, s, hs, hi⟩
  · rintro ⟨hlit, s, hs, hi⟩
    exact ⟨s, hs, by simp [hi, hlit, bne_iff_ne.mpr hv]⟩

theorem probeValues_of_varies (fresh : String) (live : List (List String)) (h : Varies own i) : probeValues own fresh i live =
    (literalsAt own i live).eraseDups ++ [fresh] ++ (if pastWildcard own i && 0 < i then [""] else []) := by
  unfold probeValues
  cases hmine : own[i]? with
  | none => rfl
  | some mine => simp [h mine hmine]

/-- Where the path ends in `/` and the walk's own pattern has no literal, it passed its
    wildcard. -/
theorem pastWildcard_of_empty (hw : Walk own all fresh q) (hq : q[taken.length]? = some "") (hvaries : Varies own taken.length)
    (hgo : probeStops own taken live = false) : pastWildcard own taken.length = true := by
  have hown := hw.alive _ _ hq
  cases hmine : own[taken.length]? with
  | none =>
    simp only [probeStops, Bool.or_eq_false_iff, Bool.and_eq_false_iff, Bool.not_eq_false'] at hgo
    rcases hgo.1.2 with hsome | hpast
    · simp [hmine] at hsome
    · exact hpast
  | some mine =>
    have hlit := hvaries mine hmine
    rw [mayMatch, hmine] at hown
    by_cases hwild : mine = "*"
    · obtain ⟨hlast, hlen⟩ := last_of_wildcard hw.ends (hwild ▸ hmine)
      simp [pastWildcard, hlast, hlen]
    · simp only [isLiteral, Bool.and_eq_false_iff, bne_eq_false_iff_eq, hwild, Bool.not_eq_false', false_or] at hlit
      simp [hwild, hlit] at hown

/-- The walk tries `v` where the path has `w`, and no live pattern tells the two apart. -/
structure StandsIn (own : List String) (all : List (List String)) (fresh : String) (taken : List String)
    (live : List (List String)) (w v : String) : Prop where
  tried : v ∈ probeValues own fresh taken.length live
  either : v = w ∨ v = fresh ∧ Varies own taken.length
  same : ∀ s ∈ all, Alive s taken → mayMatch s taken.length v = mayMatch s taken.length w

/-- One step of the walk: it tries the path's segment as the patterns tell it. -/
theorem step_retold (hw : Walk own all fresh q) {w : String} (hq : q[taken.length]? = some w)
    (ha : Along own all fresh q taken) (hlive : ∀ s, s ∈ live ↔ s ∈ all ∧ Alive s taken)
    (hgo : probeStops own taken live = false) :
    StandsIn own all fresh taken live w (retoldSegment fresh live taken.length w) := by
  have hshort : taken.length < q.length := (List.getElem?_eq_some_iff.mp hq).1
  have hown := hw.alive _ _ hq
  have hkeeps : retoldSegment fresh live taken.length w = w → w ∈ probeValues own fresh taken.length live →
      StandsIn own all fresh taken live w (retoldSegment fresh live taken.length w) := by
    intro hsame hmem
    rw [hsame]
    exact ⟨hmem, .inl rfl, fun _ _ _ => rfl⟩
  by_cases hvaries : Varies own taken.length
  · have hothers := probeValues_of_varies fresh live hvaries
    by_cases hempty : w = ""
    · -- Only past the wildcard may the path end in `/` here.
      subst hempty
      have hpos : 0 < taken.length := by
        rcases Nat.eq_zero_or_pos taken.length with hzero | hpos
        · exact absurd hq (filled_at hw hshort (.inr hzero))
        · exact hpos
      apply hkeeps (by simp [retoldSegment])
      rw [hothers, pastWildcard_of_empty hw hq hvaries hgo]
      simp [hpos]
    · by_cases hmem : w ∈ literalsAt own taken.length live
      · apply hkeeps
        · simp [retoldSegment, (mem_literalsAt hempty).mp hmem]
        · rw [hothers]
          simp [hmem]
      · have hunspelled : spelled live taken.length w = false := by
          rw [Bool.eq_false_iff]
          exact fun h => hmem ((mem_literalsAt hempty).mpr h)
        have hfresh : retoldSegment fresh live taken.length w = fresh := by simp [retoldSegment, hempty, hunspelled]
        rw [hfresh]
        refine ⟨by rw [hothers]; simp, .inr ⟨rfl, hvaries⟩, ?_⟩
        intro s hs halive
        apply mayMatch_fresh hempty hw.fresh (hw.free s hs)
        rintro segment hsegment hlit rfl
        exact absurd ((spelled_iff).mpr ⟨hlit, s, (hlive s).mpr ⟨hs, halive⟩, hsegment⟩) (by simp [hunspelled])
  · -- The walk's own literal is the path's segment.
    simp only [Varies, not_forall, Bool.not_eq_false] at hvaries
    obtain ⟨mine, hmine, hlit⟩ := hvaries
    have hwild : mine ≠ "*" ∧ Text.startsWith mine ":" = false := by simpa [isLiteral] using hlit
    rw [mayMatch, hmine] at hown
    simp only [hwild.1, hwild.2, if_false, Bool.false_eq_true, beq_iff_eq] at hown
    subst hown
    have halive : Alive own taken := (ha.same own hw.mem).mpr (alive_take hw.alive _)
    have hspelled : spelled live taken.length mine = true :=
      (spelled_iff).mpr ⟨hlit, own, (hlive own).mpr ⟨hw.mem, halive⟩, hmine⟩
    apply hkeeps
    · simp [retoldSegment, hspelled]
    · rw [probeValues, hmine]
      simp [hlit]

theorem length_le_longest (hs : s ∈ all) : s.length ≤ longest all := by
  induction all with
  | nil => cases hs
  | cons first rest ih =>
    simp only [longest, List.foldr_cons]
    rcases List.mem_cons.mp hs with rfl | hs
    · omega
    · have := ih hs
      simp only [longest] at this
      omega

/-- The walk reaches what is left of `q` as the patterns tell it. -/
theorem extendPaths_retold (hw : Walk own all fresh q) (depth : Nat) (hrest : q.drop taken.length = rest)
    (ha : Along own all fresh q taken) (hlive : ∀ s, s ∈ live ↔ s ∈ all ∧ Alive s taken)
    (hdepth : taken.length + depth = longest all + 2) (hfuel : taken.length ≤ longest all + 1) :
    pathOf (taken ++ retold fresh live taken.length rest) ∈ extendPaths own fresh depth taken live ∧
      Along own all fresh q (taken ++ retold fresh live taken.length rest) ∧
      ((taken ++ retold fresh live taken.length rest).length = q.length ∨
        ∀ s ∈ all, Alive s (taken ++ retold fresh live taken.length rest) →
          endsBefore s (taken ++ retold fresh live taken.length rest).length = true) := by
  induction depth generalizing taken live rest with
  | zero => omega
  | succ depth ih =>
    rw [extendPaths]
    cases rest with
    | nil =>
      have hlen := congrArg List.length hrest
      rw [List.length_drop, List.length_nil] at hlen
      have hwithin := ha.within
      rw [retold, List.append_nil]
      exact ⟨List.mem_cons_self, ha, .inl (by omega)⟩
    | cons w rest =>
      have hq : q[taken.length]? = some w := by
        rw [← List.head?_drop, hrest]
        rfl
      have hshort : taken.length < q.length := (List.getElem?_eq_some_iff.mp hq).1
      cases hstop : probeStops own taken live with
      | true =>
        have hends := ends_of_stops hw ha hshort hlive hstop
        have hall : live.all (fun segments => endsBefore segments taken.length) = true := by
          rw [List.all_eq_true]
          intro s hs
          exact hends s ((hlive s).mp hs).1 ((hlive s).mp hs).2
        rw [retold, if_pos hall, List.append_nil]
        exact ⟨List.mem_cons_self, ha, .inr hends⟩
      | false =>
        have hnot : live.all (fun segments => endsBefore segments taken.length) = false := by
          simp only [probeStops, Bool.or_eq_false_iff] at hstop
          exact hstop.2
        obtain ⟨hmem, hagrees, hsame⟩ := step_retold hw hq ha hlive hstop
        -- A path longer than every pattern leaves only patterns past their wildcard.
        have hroom : taken.length ≤ longest all := by
          by_contra hlong
          have hall : live.all (fun segments => endsBefore segments taken.length) = true := by
            rw [List.all_eq_true]
            intro s hs
            obtain ⟨hin, halive⟩ := (hlive s).mp hs
            have := length_le_longest hin
            exact endsBefore_of_alive halive (by omega)
          rw [hall] at hnot
          cases hnot
        have hlen : (taken ++ [retoldSegment fresh live taken.length w]).length = taken.length + 1 := by simp
        have hfilter : (live.filter fun segments => mayMatch segments taken.length w) =
            live.filter fun segments => mayMatch segments taken.length (retoldSegment fresh live taken.length w) := by
          apply List.filter_congr
          intro s hs
          rw [hsame s ((hlive s).mp hs).1 ((hlive s).mp hs).2]
        have hdrop : q.drop (taken ++ [retoldSegment fresh live taken.length w]).length = rest := by
          rw [hlen, ← List.drop_drop, hrest]
          rfl
        have hnext := ih hdrop (along_append ha hq hagrees hsame)
          (fun s => by rw [List.mem_filter, hlive, alive_append, and_assoc]) (by omega) (by omega)
        rw [retold, hnot, if_neg Bool.false_ne_true, hfilter]
        simp only [Bool.false_eq_true, if_false]
        rw [List.append_assoc, hlen, List.singleton_append] at hnext
        exact ⟨List.mem_cons_of_mem _ (List.mem_flatMap.mpr ⟨_, List.mem_eraseDups.mpr hmem, hnext.1⟩), hnext.2⟩

theorem alive_of_endsBefore {n : Nat} (h : Alive s (q.take n)) (hend : endsBefore s n = true) : Alive s q := by
  intro i v hi
  by_cases hlt : i < n
  · exact h i v (by rw [List.getElem?_take, if_pos hlt, hi])
  · exact mayMatch_of_endsBefore (endsBefore_mono hend (by omega))

/-- Where the walk ends, a pattern matches what it took exactly when it matches `q`. -/
theorem matches_of_along (ha : Along own all fresh q taken)
    (hdone : taken.length = q.length ∨ ∀ s ∈ all, Alive s taken → endsBefore s taken.length = true) (hs : s ∈ all)
    (hend : EndsAtWildcard (s.map toSegment)) :
    (matchSegments (s.map toSegment) taken).isSome ↔ (matchSegments (s.map toSegment) q).isSome := by
  unfold matchSegments
  rw [matchFrom_iff hend, matchFrom_iff hend]
  rcases hdone with hfull | hpast
  · rw [ha.same s hs, hfull, List.take_length]
  · constructor
    · rintro ⟨halive, _⟩
      have hbefore := hpast s hs halive
      refine ⟨alive_of_endsBefore ((ha.same s hs).mp halive) hbefore, ?_⟩
      have hwithin := ha.within
      simp only [endsBefore, Bool.and_eq_true, beq_iff_eq, decide_eq_true_eq] at hbefore
      rw [CompleteFrom, if_pos hbefore.1]
      exact .inl (by omega)
    · rintro ⟨halive, _⟩
      have htaken := (ha.same s hs).mpr (alive_take halive _)
      refine ⟨htaken, ?_⟩
      have hbefore := hpast s hs htaken
      simp only [endsBefore, Bool.and_eq_true, beq_iff_eq, decide_eq_true_eq] at hbefore
      rw [CompleteFrom, if_pos hbefore.1]
      exact .inl hbefore.2

end

/-! ## A probe for every path -/

/-- The literal segments of the paths of some patterns. -/
def literalsOf (paths : List String) : List String := (paths.map splitPath).flatten.filter isLiteral

theorem firstFree_unique {a b : String} (ha : FirstFree literals a) (hb : FirstFree literals b) : a = b := by
  obtain ⟨m, rfl, hm, hbefore⟩ := ha
  obtain ⟨n, rfl, hn, hbefore'⟩ := hb
  rcases Nat.lt_trichotomy m n with hlt | rfl | hlt
  · exact absurd (hbefore' m hlt) hm
  · rfl
  · exact absurd (hbefore n hlt) hn

theorem firstFree_congr {literals' : List String} {fresh : String} (hsame : ∀ s, s ∈ literals ↔ s ∈ literals')
    (h : FirstFree literals' fresh) : FirstFree literals fresh := by
  obtain ⟨n, hn, hnot, hbefore⟩ := h
  exact ⟨n, hn, fun hmem => hnot ((hsame _).mp hmem), fun m hm => (hsame _).mpr (hbefore m hm)⟩

section
variable {own taken : List String} {all : List (List String)} {fresh q : String}

/-- What a walk along a canonical path takes spells a canonical path. -/
theorem along_canonical (hw : Walk own all fresh (splitPath q)) (ha : Along own all fresh (splitPath q) taken)
    (hq : isCanonicalPath q = true) (hplain : PlainSegment fresh) :
    isCanonicalPath (pathOf taken) = true ∧ splitPath (pathOf taken) = taken := by
  have hempty : ∀ i : Nat, taken[i]? = some "" → (splitPath q)[i]? = some "" := by
    intro i hi
    rcases ha.agrees i "" hi with hv | hv
    · exact hv
    · exact absurd hv.1.symm hw.fresh
  have hroot : taken ≠ [""] := by
    rintro rfl
    have hwithin := ha.within
    rw [List.length_singleton] at hwithin
    exact filled_at hw (by omega) (.inr rfl) (hempty 0 rfl)
  have hsegments : ∀ s ∈ taken, PlainSegment s := by
    intro s hs
    obtain ⟨i, hi⟩ := List.mem_iff_getElem?.mp hs
    rcases ha.agrees i s hi with hv | ⟨rfl, -⟩
    · exact (plain_of_canonical hq).1 s (List.mem_of_getElem? hv)
    · exact hplain
  have hfilled : ∀ s ∈ taken.dropLast, s ≠ "" := by
    rintro s hs rfl
    obtain ⟨i, hi⟩ := List.mem_iff_getElem?.mp hs
    rw [List.getElem?_dropLast] at hi
    split at hi
    · have hwithin := ha.within
      exact filled_at hw (by omega) (.inl (by omega)) (hempty i hi)
    · cases hi
  exact ⟨canonical_of_plain hroot hsegments hfilled, splitPath_join hroot fun s hs => (hsegments s hs).slash⟩

end

theorem parsed_eq {other : String} {parsed : List Segment} (h : parsePattern other = .ok parsed) :
    parsed = (splitPath other).map toSegment ∧ EndsAtWildcard ((splitPath other).map toSegment) := by
  have heq := parsePattern_eq_map h
  exact ⟨heq, heq ▸ parsePattern_endsAtWildcard h⟩

/-- The walk of `probePaths` along a path its own pattern matches. -/
theorem walk_of_match (patterns : List String) {q : String} (hq : isCanonicalPath q = true)
    (hp : parsePattern pattern = .ok segments) (hmatch : (matchSegments segments (splitPath q)).isSome) :
    Walk (splitPath pattern) ((pattern :: patterns).map splitPath) (freshSegment (literalsOf (pattern :: patterns)))
      (splitPath q) := by
  obtain ⟨_, hfilled, hbelow⟩ := plain_of_canonical hq
  obtain ⟨rfl, hown⟩ := parsed_eq hp
  rw [matchSegments, matchFrom_iff hown] at hmatch
  obtain ⟨n, hn, hfree, -⟩ := freshSegment_firstFree (literalsOf (pattern :: patterns))
  exact
    { mem := List.mem_cons_self
      alive := hmatch.1
      complete := hmatch.2
      ends := hown
      filled := hfilled
      below := hbelow
      free := by
        intro s hs segment hsegment hlit he
        exact hfree (he ▸ List.mem_filter.mpr ⟨List.mem_flatten.mpr ⟨s, hs, hsegment⟩, hlit⟩)
      fresh := hn ▸ xs_ne_empty n }

/-- The segments of `p` as the patterns tell them. -/
def retoldSegments (patterns : List String) (p : String) : List String :=
  retold (freshSegment (literalsOf patterns)) (patterns.map splitPath) 0 (splitPath p)

def retelling (patterns : List String) (p : String) : String := pathOf (retoldSegments patterns p)

/-- The walk reaches the retelling of a path its own pattern matches. -/
theorem retelling_reached (patterns : List String) {q : String} (hq : isCanonicalPath q = true)
    (hp : parsePattern pattern = .ok segments) (hmatch : (matchSegments segments (splitPath q)).isSome) :
    retelling (pattern :: patterns) q ∈ probePaths pattern patterns ∧
      Along (splitPath pattern) ((pattern :: patterns).map splitPath) (freshSegment (literalsOf (pattern :: patterns)))
        (splitPath q) (retoldSegments (pattern :: patterns) q) ∧
      ((retoldSegments (pattern :: patterns) q).length = (splitPath q).length ∨
        ∀ s ∈ (pattern :: patterns).map splitPath, Alive s (retoldSegments (pattern :: patterns) q) →
          endsBefore s (retoldSegments (pattern :: patterns) q).length = true) := by
  have hwalk := walk_of_match patterns hq hp hmatch
  have hstart : Along (splitPath pattern) ((pattern :: patterns).map splitPath)
      (freshSegment (literalsOf (pattern :: patterns))) (splitPath q) [] := ⟨Nat.zero_le _, by simp, fun s _ => by simp⟩
  have hlive : ∀ s, s ∈ (pattern :: patterns).map splitPath ↔ s ∈ (pattern :: patterns).map splitPath ∧ Alive s [] :=
    fun s => ⟨fun h => ⟨h, by simp [Alive]⟩, fun h => h.1⟩
  obtain ⟨hmem, halong, hdone⟩ := extendPaths_retold hwalk (longest ((pattern :: patterns).map splitPath) + 2)
    rfl hstart hlive (Nat.zero_add _) (Nat.zero_le _)
  refine ⟨?_, halong, hdone⟩
  rw [probePaths, List.mem_eraseDups]
  exact hmem

theorem plain_fresh (literals : List String) : PlainSegment (freshSegment literals) := by
  obtain ⟨n, hn, -⟩ := freshSegment_firstFree literals
  exact hn ▸ plain_xs n

/-- The retelling is a canonical path that the same patterns match. -/
theorem retelling_canonical (patterns : List String) {q : String} (hq : isCanonicalPath q = true)
    (hp : parsePattern pattern = .ok segments) (hmatch : (matchSegments segments (splitPath q)).isSome) :
    isCanonicalPath (retelling (pattern :: patterns) q) = true ∧
      splitPath (retelling (pattern :: patterns) q) = retoldSegments (pattern :: patterns) q :=
  along_canonical (walk_of_match patterns hq hp hmatch) (retelling_reached patterns hq hp hmatch).2.1 hq (plain_fresh _)

theorem retelling_matches {q : String} {patterns : List String} (hq : isCanonicalPath q = true)
    (hp : parsePattern pattern = .ok segments) (hmatch : (matchSegments segments (splitPath q)).isSome) {other : String}
    (hother : other ∈ pattern :: patterns) {parsed : List Segment} (hparsed : parsePattern other = .ok parsed) :
    (matchSegments parsed (splitPath (retelling (pattern :: patterns) q))).isSome ↔
      (matchSegments parsed (splitPath q)).isSome := by
  obtain ⟨-, halong, hdone⟩ := retelling_reached patterns hq hp hmatch
  obtain ⟨rfl, hend⟩ := parsed_eq hparsed
  rw [(retelling_canonical patterns hq hp hmatch).2]
  exact matches_of_along halong hdone (List.mem_map.mpr ⟨other, hother, rfl⟩) hend

/-! ## The order of the patterns -/

section
variable {own : List String} {live live' : List (List String)}

theorem mem_probeValues_congr (h : ∀ s, s ∈ live ↔ s ∈ live') (fresh : String) (i : Nat) (v : String) :
    v ∈ probeValues own fresh i live ↔ v ∈ probeValues own fresh i live' := by
  have hliterals : ∀ v, v ∈ literalsAt own i live ↔ v ∈ literalsAt own i live' := by
    intro v
    simp only [literalsAt, List.mem_flatMap, h]
  unfold probeValues
  cases own[i]? with
  | none => simp [hliterals]
  | some mine => cases hlit : isLiteral mine <;> simp [hliterals, hlit]

theorem mem_extendPaths_congr (h : ∀ s, s ∈ live ↔ s ∈ live') (fresh : String) (depth : Nat) (taken : List String) (q : String) :
    q ∈ extendPaths own fresh depth taken live ↔ q ∈ extendPaths own fresh depth taken live' := by
  induction depth generalizing taken live live' with
  | zero => exact Iff.rfl
  | succ depth ih =>
    have hstop : probeStops own taken live = probeStops own taken live' := by
      rw [Bool.eq_iff_iff]
      simp only [probeStops, Bool.or_eq_true, List.all_eq_true, h]
    have hnext : ∀ v, q ∈ extendPaths own fresh depth (taken ++ [v]) (live.filter fun s => mayMatch s taken.length v) ↔
        q ∈ extendPaths own fresh depth (taken ++ [v]) (live'.filter fun s => mayMatch s taken.length v) := by
      intro v
      apply ih
      intro s
      rw [List.mem_filter, List.mem_filter, h]
    rw [extendPaths, extendPaths, hstop]
    cases probeStops own taken live' with
    | true => exact Iff.rfl
    | false => simp [mem_probeValues_congr h, hnext]

theorem longest_perm (h : live.Perm live') : longest live = longest live' := by
  unfold longest
  induction h with
  | nil => rfl
  | cons s _ ih => simp [ih]
  | swap s t l => simp only [List.foldr_cons]; omega
  | trans _ _ ih₁ ih₂ => exact ih₁.trans ih₂

/-- The probes are the same in whatever order the patterns stand. -/
theorem mem_probePaths_perm {patterns patterns' : List String} (h : patterns.Perm patterns') (pattern q : String) :
    q ∈ probePaths pattern patterns ↔ q ∈ probePaths pattern patterns' := by
  have hall : (splitPath pattern :: patterns.map splitPath).Perm (splitPath pattern :: patterns'.map splitPath) :=
    (h.map splitPath).cons _
  have hliterals := hall.flatten.filter isLiteral
  have hfresh := firstFree_unique (freshSegment_firstFree _)
    (firstFree_congr (fun s => hliterals.mem_iff) (freshSegment_firstFree _))
  simp only [probePaths, List.mem_eraseDups, hfresh, longest_perm hall]
  exact mem_extendPaths_congr (fun s => hall.mem_iff) _ _ _ _

end

end Fabrika.Control
