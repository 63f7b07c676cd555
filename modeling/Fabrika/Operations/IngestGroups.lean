/-
  Fabrika.Operations.IngestGroups — a group leaves what its events leave one by one.

  A group's batch that does not apply it inserts its events' rows and nothing else, and `record`
  finds them as if it had inserted them itself (`applyAll_seeded`). One that does apply it makes
  the rows, the issue and the answers of the events in order (`groupBatch_open`,
  `groupBatch_missing`), unless one of them was already waiting, or the group makes the issue and
  its first event is not its earliest.
-/

import Fabrika.Operations.IngestProofs

namespace Fabrika.Operations.Ingest

open Fabrika.Lib

/-! ## Inserted first -/

section
variable (rows : List Occurrence) (inputs : List RecordOccurrenceInput)

theorem insertAll_rows : (insertAll rows inputs).1 = inputs.foldl insertOccurrence rows := by
  induction inputs generalizing rows with
  | nil => rfl
  | cons input rest ih => exact ih _

theorem isApplied_inserted (key : Key) : isApplied (inputs.foldl insertOccurrence rows) key = isApplied rows key := by
  induction inputs generalizing rows with
  | nil => rfl
  | cons input rest ih => rw [List.foldl_cons, ih, isApplied_insertOccurrence]

theorem appliedCount_inserted (row : Occurrence) :
    appliedCount (inputs.foldl insertOccurrence rows) row = appliedCount rows row := by
  induction inputs generalizing rows with
  | nil => rfl
  | cons input rest ih => rw [List.foldl_cons, ih, appliedCount_insertOccurrence]

end

variable {key : Key} {rows : List Occurrence}

theorem stored_of_stored (h : stored rows key = true) (inputs : List RecordOccurrenceInput) :
    stored (inputs.foldl insertOccurrence rows) key = true := by
  induction inputs generalizing rows with
  | nil => exact h
  | cons input rest ih =>
    apply ih
    rw [insertOccurrence]
    split
    · exact h
    · rw [stored, List.any_append]
      exact Bool.or_eq_true_iff.mpr (.inl h)

theorem stored_settle (key : Key) (kind : Option TransitionKind) (rows : List Occurrence) (other : Key) :
    stored (settle key kind rows) other = stored rows other := by
  rw [Bool.eq_iff_iff, stored_iff, stored_iff, keys_settle]

/-- A later insert does not meet the row that is settled. -/
theorem settle_insertOccurrence (h : stored rows key = true) (kind : Option TransitionKind) (input : RecordOccurrenceInput) :
    settle key kind (insertOccurrence rows input) = insertOccurrence (settle key kind rows) input := by
  rw [insertOccurrence, insertOccurrence, stored_settle]
  by_cases hinput : stored rows input.key = true
  · rw [if_pos hinput, if_pos hinput]
  · have hne : (rowOf input).key ≠ key := by
      intro heq
      have hkey : input.key = key := heq
      rw [hkey] at hinput
      exact hinput h
    rw [if_neg hinput, if_neg hinput, settle, List.map_append]
    simp only [List.map_cons, List.map_nil, isWaiting_ne hne]
    rfl

theorem settle_inserted (h : stored rows key = true) (kind : Option TransitionKind) (inputs : List RecordOccurrenceInput) :
    settle key kind (inputs.foldl insertOccurrence rows) = inputs.foldl insertOccurrence (settle key kind rows) := by
  induction inputs generalizing rows with
  | nil => rfl
  | cons input rest ih =>
    rw [List.foldl_cons, List.foldl_cons, ← settle_insertOccurrence h kind input]
    exact ih (stored_of_stored h [input])

/-- The state with some events' rows inserted. -/
def seeded (s : State) (inputs : List RecordOccurrenceInput) : State :=
  { s with occurrences := inputs.foldl insertOccurrence s.occurrences }

theorem applyEvent_seeded (s : State) (input : RecordOccurrenceInput) (rest : List RecordOccurrenceInput) :
    applyEvent (seeded s (input :: rest)) input = seeded (applyEvent s input) rest := by
  have hstored := stored_insertOccurrence s.occurrences input
  have happlied : isApplied (seeded s (input :: rest)).occurrences input.key = isApplied s.occurrences input.key :=
    isApplied_inserted _ _ _
  have hkind : kindOf (seeded s (input :: rest)) input = kindOf s input := by
    show (s.issues _ _).bind _ = (s.issues _ _).bind _
    rw [seeded, appliedCount_inserted]
  have hinsert : insertOccurrence (rest.foldl insertOccurrence (insertOccurrence s.occurrences input)) input =
      rest.foldl insertOccurrence (insertOccurrence s.occurrences input) := if_pos (stored_of_stored hstored rest)
  cases hcase : isApplied s.occurrences input.key with
  | true =>
    have hsame : insertOccurrence s.occurrences input = s.occurrences := by
      obtain ⟨row, hrow, hkey, _⟩ := isApplied_iff.mp hcase
      exact if_pos (stored_iff.mpr (hkey ▸ List.mem_map_of_mem hrow))
    rw [hcase] at happlied
    rw [applyEvent, applyEvent, if_pos happlied, if_pos hcase, seeded, seeded, List.foldl_cons, hsame]
  | false =>
    rw [hcase] at happlied
    rw [applyEvent, applyEvent, if_neg (by simp [happlied]), if_neg (by simp [hcase]), hkind]
    simp only [seeded, List.foldl_cons, hinsert, settle_inserted hstored]

/-- Events whose rows are inserted first are applied as if they were not. -/
theorem applyAll_seeded (s : State) (inputs : List RecordOccurrenceInput) :
    inputs.foldl applyEvent (seeded s inputs) = inputs.foldl applyEvent s := by
  induction inputs generalizing s with
  | nil => rfl
  | cons input rest ih => rw [List.foldl_cons, List.foldl_cons, applyEvent_seeded, ih]

/-! ## New events -/

/-- The events of a group not among known ones, each once. -/
def fresh (known : List Key) : List RecordOccurrenceInput → List RecordOccurrenceInput
  | [] => []
  | input :: rest => if input.key ∈ known then fresh known rest else input :: fresh (known ++ [input.key]) rest

/-- A group's answers: the known events, and those it holds twice, are duplicates. -/
def answersOf (known : List Key) : List RecordOccurrenceInput → List Answer
  | [] => []
  | input :: rest =>
    ⟨input.key, decide (input.key ∈ known)⟩ :: answersOf (if input.key ∈ known then known else known ++ [input.key]) rest

def appliedRow (input : RecordOccurrenceInput) : Occurrence := { rowOf input with applied := true }

theorem fresh_subset (known : List Key) (inputs : List RecordOccurrenceInput) : fresh known inputs ⊆ inputs := by
  induction inputs generalizing known with
  | nil => exact List.Subset.refl _
  | cons input rest ih =>
    rw [fresh]
    split
    · exact List.subset_cons_of_subset _ (ih known)
    · exact List.cons_subset_cons _ (ih _)

theorem inserted_eq (rows : List Occurrence) (inputs : List RecordOccurrenceInput) :
    inputs.foldl insertOccurrence rows = rows ++ (fresh (rows.map Occurrence.key) inputs).map rowOf := by
  induction inputs generalizing rows with
  | nil => simp [fresh]
  | cons input rest ih =>
    rw [List.foldl_cons, fresh, insertOccurrence]
    by_cases hstored : stored rows input.key = true
    · rw [if_pos hstored, if_pos (stored_iff.mp hstored), ih]
    · rw [if_neg hstored, if_neg (mt stored_iff.mpr hstored), ih, List.map_append, List.append_assoc]
      rfl

theorem insertAll_answers (rows : List Occurrence) (inputs : List RecordOccurrenceInput) :
    (inputs.zip (insertAll rows inputs).2).map (fun one => (⟨one.1.key, !one.2⟩ : Answer)) =
    answersOf (rows.map Occurrence.key) inputs := by
  induction inputs generalizing rows with
  | nil => rfl
  | cons input rest ih =>
    rw [insertAll, List.zip_cons_cons, List.map_cons, ih, answersOf, Bool.not_not, keys_insertOccurrence]
    by_cases hstored : stored rows input.key = true
    · rw [if_pos hstored, if_pos (stored_iff.mp hstored), hstored, decide_eq_true (stored_iff.mp hstored)]
    · have hknown := mt stored_iff.mpr hstored
      rw [if_neg hstored, if_neg hknown, eq_false_of_ne_true hstored, decide_eq_false hknown]

/-! ## One by one on an open issue -/

def seenAll (issue : IssueRow) (inputs : List RecordOccurrenceInput) : IssueRow :=
  inputs.foldl (fun issue input => seen issue input.receivedAt) issue

theorem not_mem_keys (h : stored rows key = false) : ∀ row ∈ rows, row.key ≠ key := by
  intro row hrow hkey
  have hstored : stored rows key = true := stored_iff.mpr (hkey ▸ List.mem_map_of_mem hrow)
  rw [h] at hstored
  cases hstored

theorem isApplied_of_not_stored (h : stored rows key = false) : isApplied rows key = false := by
  rw [← Bool.not_eq_true, isApplied_iff]
  rintro ⟨row, hrow, hkey, _⟩
  exact not_mem_keys h row hrow hkey

/-- A new event is appended as its applied row. -/
theorem settle_new {input : RecordOccurrenceInput} (h : stored rows input.key = false) :
    settle input.key none (insertOccurrence rows input) = rows ++ [appliedRow input] := by
  rw [insertOccurrence, if_neg (by simp [h]), settle, map_at (not_mem_keys h) (by simp)
    (fun other hne => by rw [isWaiting_ne hne]; rfl), if_pos (isWaiting_rowOf input)]
  rfl

section
variable {s : State} {input : RecordOccurrenceInput} {issue : IssueRow}

theorem applyEvent_open (hissue : s.issues input.sourceId input.fingerprint = some issue) (hopened : issue.status = .opened)
    (hnew : stored s.occurrences input.key = false) :
    applyEvent s input =
      { occurrences := s.occurrences ++ [appliedRow input]
        issues := setIssue s.issues input.sourceId input.fingerprint (seen issue input.receivedAt)
        activity := s.activity, nextId := s.nextId + 1, answers := s.answers ++ [⟨input.key, false⟩] } := by
  have hkind : kindOf s input = none := by
    rw [kindOf, hissue, Option.bind_some]
    simp [transitionOf, regresses, unsnoozes, hopened]
  rw [applyEvent, if_neg (by simp [isApplied_of_not_stored hnew])]
  simp only [hkind, hissue, settle_new hnew, applyIssue, Option.isSome_none, Option.map_none, Option.toList_none, List.append_nil]
  rfl

theorem applyEvent_missing (hissue : s.issues input.sourceId input.fingerprint = none)
    (hnew : stored s.occurrences input.key = false) :
    applyEvent s input =
      { occurrences := s.occurrences ++ [appliedRow input]
        issues := setIssue s.issues input.sourceId input.fingerprint (newIssue input input.receivedAt input.receivedAt)
        activity := s.activity, nextId := s.nextId + 1, answers := s.answers ++ [⟨input.key, false⟩] } := by
  have hkind : kindOf s input = none := by
    rw [kindOf, hissue]
    rfl
  rw [applyEvent, if_neg (by simp [isApplied_of_not_stored hnew])]
  simp only [hkind, hissue, settle_new hnew, applyIssue, Option.map_none, Option.toList_none, List.append_nil]

end

theorem setIssue_same {issues : String → String → Option IssueRow} {sourceId fingerprint : String} {issue : IssueRow}
    (h : issues sourceId fingerprint = some issue) : setIssue issues sourceId fingerprint issue = issues := by
  funext source print
  rw [setIssue]
  split
  · rename_i heq
    rw [heq.1, heq.2, h]
  · rfl

/-- The events of a group share an issue. -/
def Shares (sourceId fingerprint : String) (inputs : List RecordOccurrenceInput) : Prop :=
  ∀ input ∈ inputs, input.sourceId = sourceId ∧ input.fingerprint = fingerprint

/-- No event of a group is stored and waiting. -/
def NoneWaiting (rows : List Occurrence) (inputs : List RecordOccurrenceInput) : Prop :=
  ∀ input ∈ inputs, ∀ row ∈ rows, row.key = input.key → row.applied = true

theorem NoneWaiting.applied {inputs : List RecordOccurrenceInput} (h : NoneWaiting rows inputs) {input : RecordOccurrenceInput}
    (hinput : input ∈ inputs) (hstored : stored rows input.key = true) : isApplied rows input.key = true := by
  obtain ⟨row, hrow, hkey⟩ := List.mem_map.mp (stored_iff.mp hstored)
  exact isApplied_iff.mpr ⟨row, hrow, hkey, h input hinput row hrow hkey⟩

/-- Appending an applied row leaves none waiting. -/
theorem NoneWaiting.append {inputs : List RecordOccurrenceInput} (h : NoneWaiting rows inputs) (new : RecordOccurrenceInput) :
    NoneWaiting (rows ++ [appliedRow new]) inputs := by
  intro input hinput row hrow hkey
  rcases List.mem_append.mp hrow with hold | hnew
  · exact h input hinput row hold hkey
  · rw [List.mem_singleton.mp hnew]
    rfl

theorem applyAll_open {inputs : List RecordOccurrenceInput} {s : State} {sourceId fingerprint : String} {issue : IssueRow}
    (hissue : s.issues sourceId fingerprint = some issue) (hopened : issue.status = .opened)
    (hshares : Shares sourceId fingerprint inputs)
    (hwaiting : NoneWaiting s.occurrences inputs) :
    inputs.foldl applyEvent s =
      { occurrences := s.occurrences ++ (fresh (s.occurrences.map Occurrence.key) inputs).map appliedRow
        issues := setIssue s.issues sourceId fingerprint (seenAll issue (fresh (s.occurrences.map Occurrence.key) inputs))
        activity := s.activity, nextId := s.nextId + inputs.length
        answers := s.answers ++ answersOf (s.occurrences.map Occurrence.key) inputs } := by
  induction inputs generalizing s issue with
  | nil => simp [fresh, answersOf, seenAll, setIssue_same hissue]
  | cons input rest ih =>
    obtain ⟨rfl, rfl⟩ := hshares input List.mem_cons_self
    have hrest : Shares input.sourceId input.fingerprint rest := fun other hother => hshares other (List.mem_cons_of_mem _ hother)
    have hwaits : NoneWaiting s.occurrences rest := fun other hother => hwaiting other (List.mem_cons_of_mem _ hother)
    rw [List.foldl_cons]
    cases hstored : stored s.occurrences input.key with
    | true =>
      have hknown := stored_iff.mp hstored
      rw [applyEvent, if_pos (hwaiting.applied List.mem_cons_self hstored)]
      have hih := @ih { s with nextId := s.nextId + 1, answers := s.answers ++
        [⟨input.key, true⟩] } issue hissue hopened hrest hwaits
      rw [hih]
      simp [fresh, answersOf, hknown]
      omega
    | false =>
      have hknown : input.key ∉ s.occurrences.map Occurrence.key := mt stored_iff.mpr (by simp [hstored])
      rw [applyEvent_open hissue hopened hstored]
      have hih := @ih
        { occurrences := s.occurrences ++ [appliedRow input]
          issues := setIssue s.issues input.sourceId input.fingerprint (seen issue input.receivedAt)
          activity := s.activity, nextId := s.nextId + 1, answers := s.answers ++ [⟨input.key, false⟩] }
        (seen issue input.receivedAt) (setIssue_self _ _ _ _) hopened hrest (hwaits.append input)
      have hkeys : (s.occurrences ++ [appliedRow input]).map Occurrence.key = s.occurrences.map Occurrence.key ++
        [input.key] := by
        rw [List.map_append]
        rfl
      rw [hih]
      simp only [hkeys, setIssue_setIssue]
      simp [fresh, answersOf, hknown, seenAll]
      omega

/-! ## A group that is applied -/

theorem seenAll_lastSeen (issue : IssueRow) (inputs : List RecordOccurrenceInput) :
    seenAll issue inputs = { issue with lastSeen := (inputs.map RecordOccurrenceInput.receivedAt).foldl max issue.lastSeen } := by
  induction inputs generalizing issue with
  | nil => rfl
  | cons input rest ih =>
    rw [List.map_cons, List.foldl_cons]
    exact ih (seen issue input.receivedAt)

theorem foldl_max (a b : Int) (l : List Int) : l.foldl max (max a b) = max a (l.foldl max b) := by
  induction l generalizing b with
  | nil => rfl
  | cons c l ih =>
    rw [List.foldl_cons, List.foldl_cons, ← ih]
    congr 1
    omega

/-- Seeing the latest is seeing each. -/
theorem seenAll_max {issue : IssueRow} {inputs : List RecordOccurrenceInput} {latest : Int}
    (h : (inputs.map RecordOccurrenceInput.receivedAt).max? = some latest) : seenAll issue inputs = seen issue latest := by
  cases inputs with
  | nil => cases h
  | cons input rest =>
    rw [List.map_cons, List.max?_cons', Option.some.injEq] at h
    rw [seenAll_lastSeen, seen, ← h, List.map_cons, List.foldl_cons, foldl_max]

theorem receivedAt_rows (inputs : List RecordOccurrenceInput) :
    (inputs.map rowOf).map Occurrence.receivedAt = inputs.map RecordOccurrenceInput.receivedAt := by
  rw [List.map_map]
  rfl

section
variable {s : State} {first : RecordOccurrenceInput} {inputs : List RecordOccurrenceInput}

variable {due : List Occurrence} {issue : IssueRow}

theorem isDue_iff {row : Occurrence} :
    isDue first inputs row = true ↔ row.sourceId = first.sourceId ∧ row.fingerprint = first.fingerprint ∧
      (∃ input ∈ inputs, input.eventId = row.eventId) ∧ row.applied = false := by
  simp [isDue, and_assoc]

section
variable (hshares : Shares first.sourceId first.fingerprint inputs)
include hshares

theorem isDue_stored (hwaiting : NoneWaiting s.occurrences inputs) {row : Occurrence} (hrow : row ∈ s.occurrences) :
    isDue first inputs row = false := by
  rw [← Bool.not_eq_true, isDue_iff]
  rintro ⟨hsource, _, ⟨input, hinput, hevent⟩, hwaits⟩
  have hkey : row.key = input.key := Prod.ext (hsource.trans (hshares input hinput).1.symm) hevent.symm
  rw [hwaiting input hinput row hrow hkey] at hwaits
  cases hwaits

theorem isDue_fresh {known : List Key} {input : RecordOccurrenceInput} (hinput : input ∈ fresh known inputs) :
    isDue first inputs (rowOf input) = true := by
  have hmem := fresh_subset known inputs hinput
  exact (isDue_iff).mpr ⟨(hshares input hmem).1, (hshares input hmem).2, ⟨input, hmem, rfl⟩, rfl⟩

/-- What is due of a group with none waiting are its new events. -/
theorem due_eq (hwaiting : NoneWaiting s.occurrences inputs) :
    (insertAll s.occurrences inputs).1.filter (isDue first inputs) =
    (fresh (s.occurrences.map Occurrence.key) inputs).map rowOf := by
  have hold : s.occurrences.filter (isDue first inputs) = [] := by
    rw [List.filter_eq_nil_iff]
    intro row hrow
    simp [isDue_stored hshares hwaiting hrow]
  have hnew : ((fresh (s.occurrences.map Occurrence.key) inputs).map rowOf).filter (isDue first inputs) =
      (fresh (s.occurrences.map Occurrence.key) inputs).map rowOf := by
    rw [List.filter_eq_self]
    intro row hrow
    obtain ⟨input, hinput, rfl⟩ := List.mem_map.mp hrow
    exact isDue_fresh hshares hinput
  rw [insertAll_rows, inserted_eq, List.filter_append, hold, hnew, List.nil_append]

theorem applied_eq (hwaiting : NoneWaiting s.occurrences inputs) :
    ((insertAll s.occurrences inputs).1.map fun row => if isDue first inputs row &&
      true then { row with applied := true } else row) =
      s.occurrences ++ (fresh (s.occurrences.map Occurrence.key) inputs).map appliedRow := by
  rw [insertAll_rows, inserted_eq, List.map_append]
  congr 1
  · refine (List.map_congr_left fun row hrow => ?_).trans (List.map_id _)
    rw [isDue_stored hshares hwaiting hrow]
    rfl
  · rw [List.map_map]
    refine List.map_congr_left fun input hinput => ?_
    rw [Function.comp_apply, isDue_fresh hshares hinput]
    rfl

end

theorem bounds_of_due (h : due ≠ []) :
    ∃ earliest latest, (due.map Occurrence.receivedAt).min? = some earliest ∧
    (due.map Occurrence.receivedAt).max? = some latest := by
  obtain ⟨row, rest, rfl⟩ := List.exists_cons_of_ne_nil h
  exact ⟨_, _, List.min?_cons', List.max?_cons'⟩

theorem groupIssueUpsert_open (hdue : due ≠ []) (hissue : s.issues first.sourceId first.fingerprint = some issue)
    (hopened : issue.status = .opened) :
    ∃ latest, (due.map Occurrence.receivedAt).max? = some latest ∧ groupIssueUpsert s first due = some (seen issue latest) := by
  obtain ⟨earliest, latest, hmin, hmax⟩ := bounds_of_due hdue
  exact ⟨latest, hmax, by simp [groupIssueUpsert, hmin, hmax, hissue, hopened]⟩

theorem groupIssueUpsert_missing (hdue : due ≠ []) (hissue : s.issues first.sourceId first.fingerprint = none) :
    ∃ earliest latest, (due.map Occurrence.receivedAt).min? = some earliest ∧ (due.map Occurrence.receivedAt).max? = some latest ∧
      groupIssueUpsert s first due = some (newIssue first earliest latest) := by
  obtain ⟨earliest, latest, hmin, hmax⟩ := bounds_of_due hdue
  exact ⟨earliest, latest, hmin, hmax, by simp [groupIssueUpsert, hmin, hmax, hissue]⟩

/-- A batch that does not apply its group inserts the events' rows. -/
theorem groupBatch_idle (h : groupIssueUpsert s first ((insertAll s.occurrences inputs).1.filter (isDue first inputs)) = none) :
    groupBatch s first inputs = (seeded s inputs, false) := by
  have hrows : ((insertAll s.occurrences inputs).1.map fun row =>
      if isDue first inputs row && (s.issues first.sourceId first.fingerprint).any (fun issue => issue.status = .opened) then
        { row with applied := true } else row) = (insertAll s.occurrences inputs).1 := by
    refine (List.map_congr_left fun row hrow => ?_).trans (List.map_id _)
    rw [if_neg]
    · rfl
    intro hdue
    rw [Bool.and_eq_true] at hdue
    -- A due row and an open issue make the upsert return.
    have hne : (insertAll s.occurrences inputs).1.filter (isDue first inputs) ≠ [] :=
      List.ne_nil_of_mem (List.mem_filter.mpr ⟨hrow, hdue.1⟩)
    cases hissue : s.issues first.sourceId first.fingerprint with
    | none =>
      rw [hissue] at hdue
      cases hdue.2
    | some issue =>
      rw [hissue] at hdue
      obtain ⟨_, _, hupsert⟩ := groupIssueUpsert_open hne hissue (of_decide_eq_true hdue.2)
      rw [h] at hupsert
      cases hupsert
  simp only [groupBatch, h, Option.elim_none, hrows, Option.isSome_none]
  rw [insertAll_rows]
  rfl

theorem groupBatch_applied (hopened : issue.status = .opened)
    (h : groupIssueUpsert s first ((insertAll s.occurrences inputs).1.filter (isDue first inputs)) = some issue)
    (hshares : Shares first.sourceId first.fingerprint inputs) (hwaiting : NoneWaiting s.occurrences inputs) :
    groupBatch s first inputs =
      ({ occurrences := s.occurrences ++ (fresh (s.occurrences.map Occurrence.key) inputs).map appliedRow
         issues := setIssue s.issues first.sourceId first.fingerprint issue
         activity := s.activity, nextId := s.nextId
         answers := s.answers ++ answersOf (s.occurrences.map Occurrence.key) inputs }, true) := by
  have hopen : (setIssue s.issues first.sourceId first.fingerprint issue first.sourceId first.fingerprint).any
      (fun issue => issue.status = .opened) = true := by
    rw [setIssue_self]
    simpa using hopened
  simp only [groupBatch, h, Option.elim_some, hopen, Option.isSome_some, if_true, applied_eq hshares hwaiting, insertAll_answers]

/-- The same but for the ids minted on the way. -/
def Same (s t : State) : Prop :=
  s.occurrences = t.occurrences ∧ s.issues = t.issues ∧ s.activity = t.activity ∧ s.answers = t.answers

/-- A group on an open issue, none of its events waiting. -/
theorem groupBatch_open (hissue : s.issues first.sourceId first.fingerprint = some issue) (hopened : issue.status = .opened)
    (hshares : Shares first.sourceId first.fingerprint inputs) (hwaiting : NoneWaiting s.occurrences inputs)
    (hnew : fresh (s.occurrences.map Occurrence.key) inputs ≠ []) :
    Same (groupBatch s first inputs).1 (inputs.foldl applyEvent s) ∧ (groupBatch s first inputs).2 = true := by
  have hdue := @due_eq s first inputs hshares hwaiting
  have hne : (insertAll s.occurrences inputs).1.filter (isDue first inputs) ≠ [] := by
    rw [hdue]
    simpa using hnew
  obtain ⟨latest, hmax, hupsert⟩ := groupIssueUpsert_open hne hissue hopened
  rw [hdue, receivedAt_rows] at hmax
  have happlied := groupBatch_applied (show (seen issue latest).status = .opened from hopened) hupsert hshares hwaiting
  rw [applyAll_open hissue hopened hshares hwaiting, seenAll_max hmax, happlied]
  exact ⟨⟨rfl, rfl, rfl, rfl⟩, rfl⟩

/-- A group that makes its issue, its first event the earliest. -/
theorem groupBatch_missing {rest : List RecordOccurrenceInput} (hissue : s.issues first.sourceId first.fingerprint = none)
    (hshares : Shares first.sourceId first.fingerprint (first :: rest))
    (hnew : ∀ input ∈ first :: rest, stored s.occurrences input.key = false)
    (hearliest : ∀ input ∈ first :: rest, first.receivedAt ≤ input.receivedAt) :
    Same (groupBatch s first (first :: rest)).1 ((first :: rest).foldl applyEvent s) ∧
    (groupBatch s first (first :: rest)).2 = true := by
  have hwaiting : NoneWaiting s.occurrences (first :: rest) := by
    intro input hinput row hrow hkey
    exact absurd hkey (not_mem_keys (hnew input hinput) row hrow)
  have hfirst : first.key ∉ s.occurrences.map Occurrence.key := mt stored_iff.mpr (by simp [hnew first List.mem_cons_self])
  have hfresh : fresh (s.occurrences.map Occurrence.key) (first :: rest) =
      first :: fresh (s.occurrences.map Occurrence.key ++ [first.key]) rest := by rw [fresh, if_neg hfirst]
  have hdue := @due_eq s first (first :: rest) hshares hwaiting
  have hne : (insertAll s.occurrences (first :: rest)).1.filter (isDue first (first :: rest)) ≠ [] := by
    rw [hdue, hfresh]
    simp
  obtain ⟨earliest, latest, hmin, hmax, hupsert⟩ := groupIssueUpsert_missing hne hissue
  have happlied := groupBatch_applied (show (newIssue first earliest latest).status = .opened from rfl) hupsert hshares hwaiting
  rw [hdue, receivedAt_rows, hfresh, List.map_cons] at hmin hmax
  -- The first event is the earliest, so its issue is first seen at the minimum.
  have hseen : earliest = first.receivedAt := by
    obtain ⟨hmem, hle⟩ := List.min?_eq_some_iff.mp hmin
    have hfirstLe := hle first.receivedAt List.mem_cons_self
    rcases List.mem_cons.mp hmem with heq | hmem
    · exact heq
    · obtain ⟨input, hinput, rfl⟩ := List.mem_map.mp hmem
      have := hearliest input (List.mem_cons_of_mem _ (fresh_subset _ _ hinput))
      omega
  have hlatest : seenAll (newIssue first first.receivedAt first.receivedAt)
      (fresh (s.occurrences.map Occurrence.key ++ [first.key]) rest) =
      newIssue first earliest latest := by
    rw [List.max?_cons', Option.some.injEq] at hmax
    rw [seenAll_lastSeen, hseen, ← hmax]
    rfl
  have hkeys : (s.occurrences ++ [appliedRow first]).map Occurrence.key = s.occurrences.map Occurrence.key ++ [first.key] := by
    rw [List.map_append]
    rfl
  have hrest := @applyAll_open rest
    { occurrences := s.occurrences ++ [appliedRow first]
      issues := setIssue s.issues first.sourceId first.fingerprint (newIssue first first.receivedAt first.receivedAt)
      activity := s.activity, nextId := s.nextId + 1, answers := s.answers ++ [⟨first.key, false⟩] }
    first.sourceId first.fingerprint _ (setIssue_self _ _ _ _) rfl (fun input hinput =>
      hshares input (List.mem_cons_of_mem _ hinput))
    (NoneWaiting.append (fun input hinput => hwaiting input (List.mem_cons_of_mem _ hinput)) first)
  rw [happlied, List.foldl_cons, applyEvent_missing hissue (hnew first List.mem_cons_self), hrest]
  simp only [hkeys, hlatest, setIssue_setIssue, hfresh]
  exact ⟨⟨by simp, rfl, rfl, by simp [answersOf, hfirst]⟩, trivial⟩

end

end Fabrika.Operations.Ingest
