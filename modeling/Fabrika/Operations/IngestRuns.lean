/-
  Fabrika.Operations.IngestRuns — ingest over whole runs.

  A run is any list of batches: redeliveries, regroupings, calls that died between two batches
  and operators' changes among them. `ingest_exact`: where every group's batch meets its condition
  (`Meets`), each event ends in one applied occurrence and one answer that it is no duplicate, a
  group leaves what its events leave one by one, and an issue is reopened by an occurrence that
  satisfies its rule, with one activity entry.

  `Meets` is needed. A group applied to an open issue answers that an event is a duplicate where
  its row is already there, also when an earlier call left the row unapplied: nobody ever answers
  that the event is new (`waiting_group_unanswered`). A group that makes its issue dates it from
  its earliest event, one by one from the first.
-/

import Fabrika.Operations.IngestGroups

namespace Fabrika.Operations.Ingest

open Fabrika.Lib

/-! ## The condition -/

/-- A group on an open issue holds no event that waits; one that makes its issue begins with its
    earliest event. -/
def GroupMeets (s : State) (first : RecordOccurrenceInput) (inputs : List RecordOccurrenceInput) : Prop :=
  match s.issues first.sourceId first.fingerprint with
  | none => ∀ input ∈ inputs, first.receivedAt ≤ input.receivedAt
  | some issue => issue.status = .opened → NoneWaiting s.occurrences inputs

instance (rows : List Occurrence) (inputs : List RecordOccurrenceInput) : Decidable (NoneWaiting rows inputs) :=
  inferInstanceAs (Decidable (∀ input ∈ inputs, ∀ row ∈ rows, row.key = input.key → row.applied = true))

instance (s : State) (first : RecordOccurrenceInput) (inputs : List RecordOccurrenceInput) :
    Decidable (GroupMeets s first inputs) :=
  match h : s.issues first.sourceId first.fingerprint with
  | none => decidable_of_iff (∀ input ∈ inputs, first.receivedAt ≤ input.receivedAt) (by rw [GroupMeets, h])
  | some issue => decidable_of_iff (issue.status = .opened → NoneWaiting s.occurrences inputs) (by rw [GroupMeets, h])

def Meets (s : State) : Step → Prop
  | .group inputs => ∀ first, checkGroup inputs = .ok (some first) → GroupMeets s first inputs
  | _ => True

def MeetsAll (s : State) : List Step → Prop
  | [] => True
  | st :: rest => Meets s st ∧ MeetsAll (step s st) rest

/-- The events a step delivers are as they are. -/
def StepDelivered (event : String → String → RecordOccurrenceInput) : Step → Prop
  | .record input => Delivered event input
  | .group inputs => ∀ input ∈ inputs, Delivered event input
  | .mutate _ _ _ => True

theorem checkGroup_ok {inputs : List RecordOccurrenceInput} {first : RecordOccurrenceInput}
    (h : checkGroup inputs = .ok (some first)) :
    (∃ rest, inputs = first :: rest) ∧ Shares first.sourceId first.fingerprint inputs := by
  cases inputs with
  | nil => cases h
  | cons head rest =>
    rw [checkGroup] at h
    split at h
    · cases h
    split at h
    · cases h
    · rename_i hmixed
      cases h
      refine ⟨⟨rest, rfl⟩, ?_⟩
      intro input hinput
      rw [Bool.not_eq_true, List.any_eq_false] at hmixed
      simpa using hmixed input hinput

/-! ## A group's batch -/

section
variable {event : String → String → RecordOccurrenceInput} {s : State} {first : RecordOccurrenceInput}
  {inputs : List RecordOccurrenceInput}

variable {t : State}

theorem inserted_rows {rows : List Occurrence} {row : Occurrence} (h : row ∈ inputs.foldl insertOccurrence rows) :
    row ∈ rows ∨ ∃ input ∈ inputs, row = rowOf input := by
  rw [inserted_eq] at h
  rcases List.mem_append.mp h with hold | hnew
  · exact .inl hold
  · obtain ⟨input, hinput, rfl⟩ := List.mem_map.mp hnew
    exact .inr ⟨input, fresh_subset _ _ hinput, rfl⟩

theorem nodup_inserted {rows : List Occurrence} (h : (rows.map Occurrence.key).Nodup) (inputs : List RecordOccurrenceInput) :
    ((inputs.foldl insertOccurrence rows).map Occurrence.key).Nodup := by
  induction inputs generalizing rows with
  | nil => exact h
  | cons input rest ih => exact ih (nodup_insertOccurrence h input)

theorem inv_seeded (h : Inv event s) (hinputs : ∀ input ∈ inputs, Delivered event input)
    (hshares : Shares first.sourceId first.fingerprint inputs) (hissue : s.issues first.sourceId first.fingerprint ≠ none) :
    Inv event (seeded s inputs) := by
  refine ⟨nodup_inserted h.keys inputs, ?_, ?_, ?_, h.ids⟩
  · intro row hrow
    rcases inserted_rows hrow with hold | ⟨input, hinput, rfl⟩
    · exact h.rows row hold
    · exact ⟨input, hinputs input hinput, rfl⟩
  · intro row hrow hwaits
    rcases inserted_rows hrow with hold | ⟨input, hinput, rfl⟩
    · exact h.quiet row hold hwaits
    · rfl
  · intro row hrow
    rcases inserted_rows hrow with hold | ⟨input, hinput, rfl⟩
    · exact h.issues row hold
    · obtain ⟨hsource, hprint⟩ := hshares input hinput
      show s.issues input.sourceId input.fingerprint ≠ none
      rwa [hsource, hprint]

theorem once_seeded (h : Once s) : Once (seeded s inputs) := by
  refine ⟨?_, ?_⟩
  · intro key
    rw [seeded, isApplied_inserted]
    exact h.count key
  · intro answer hanswer
    rw [seeded, isApplied_inserted]
    exact h.answered answer hanswer

/-- What a group's batch leaves: the group applied as its events are one by one, or their rows
    inserted on an issue that is there. -/
theorem groupBatch_spec (h : Inv event s) (hinputs : ∀ input ∈ inputs, Delivered event input)
    (hcheck : checkGroup inputs = .ok (some first))
    (hmeets : GroupMeets s first inputs) :
    (Same (groupBatch s first inputs).1 (inputs.foldl applyEvent s) ∧ (groupBatch s first inputs).2 = true) ∨
      (groupBatch s first inputs = (seeded s inputs, false) ∧ s.issues first.sourceId first.fingerprint ≠ none) := by
  obtain ⟨⟨rest, rfl⟩, hshares⟩ := checkGroup_ok hcheck
  rw [GroupMeets] at hmeets
  cases hissue : s.issues first.sourceId first.fingerprint with
  | none =>
    rw [hissue] at hmeets
    refine .inl (groupBatch_missing hissue hshares ?_ hmeets)
    -- A stored event has its issue, so none of this group is stored.
    intro input hinput
    rw [← Bool.not_eq_true]
    intro hstored
    obtain ⟨row, hrow, hkey⟩ := List.mem_map.mp (stored_iff.mp hstored)
    have hof := h.row (hinputs input hinput) hrow hkey
    have hthere := h.issues row hrow
    rw [IsRowOf] at hof
    rw [hof] at hthere
    obtain ⟨hsource, hprint⟩ := hshares input hinput
    change s.issues input.sourceId input.fingerprint ≠ none at hthere
    rw [hsource, hprint] at hthere
    exact hthere hissue
  | some issue =>
    rw [hissue] at hmeets
    have hthere : some issue ≠ none := Option.some_ne_none issue
    by_cases hopened : issue.status = .opened
    · have hwaiting := hmeets hopened
      by_cases hnew : fresh (s.occurrences.map Occurrence.key) (first :: rest) = []
      · have hdue := @due_eq s first (first :: rest) hshares hwaiting
        refine .inr ⟨groupBatch_idle ?_, hthere⟩
        rw [hdue, hnew]
        rfl
      · exact .inl (groupBatch_open hissue hopened hshares hwaiting hnew)
    · refine .inr ⟨groupBatch_idle ?_, hthere⟩
      rw [groupIssueUpsert]
      split
      · rw [hissue]
        exact if_neg hopened
      · rfl

theorem ids_groupBatch (h : Inv event s) : ∀ sourceId fingerprint issue,
    (groupBatch s first inputs).1.issues sourceId fingerprint = some issue →
    ∀ id, issue.lastMutationId = some id → id < s.nextId := by
  show ∀ sourceId fingerprint issue, (Option.elim (groupIssueUpsert s first _) s.issues (setIssue s.issues _ _)) sourceId
      fingerprint = some issue → _
  cases hupsert : groupIssueUpsert s first ((insertAll s.occurrences inputs).1.filter (isDue first inputs)) with
  | none => exact h.ids
  | some issue =>
    refine ids_setIssue h.ids ?_
    intro id hid
    rw [groupIssueUpsert] at hupsert
    split at hupsert
    · cases hissue : s.issues first.sourceId first.fingerprint with
      | none =>
        rw [hissue] at hupsert
        cases hupsert
        cases hid
      | some prior =>
        rw [hissue] at hupsert
        dsimp only at hupsert
        split at hupsert
        · cases hupsert
          exact h.ids _ _ prior hissue id hid
        · cases hupsert
    · cases hupsert

theorem Same.inv {u : State} (hsame : Same t u) (h : Inv event u)
    (hids : ∀ sourceId fingerprint issue, t.issues sourceId fingerprint = some issue → ∀ id, issue.lastMutationId = some id →
      id < t.nextId) :
    Inv event t := by
  obtain ⟨hrows, hissues, _, _⟩ := hsame
  exact ⟨hrows ▸ h.keys, hrows ▸ h.rows, hrows ▸ h.quiet, hrows ▸ hissues ▸ h.issues, hids⟩

theorem Same.once {u : State} (hsame : Same t u) (h : Once u) : Once t := by
  obtain ⟨hrows, _, _, hanswers⟩ := hsame
  refine ⟨?_, ?_⟩
  · rw [hrows, hanswers]
    exact h.count
  · rw [hrows, hanswers]
    exact h.answered

theorem inv_groupBatch (h : Inv event s) (hinputs : ∀ input ∈ inputs, Delivered event input)
    (hcheck : checkGroup inputs = .ok (some first))
    (hmeets : GroupMeets s first inputs) : Inv event (groupBatch s first inputs).1 := by
  rcases groupBatch_spec h hinputs hcheck hmeets with ⟨hsame, _⟩ | ⟨hidle, hissue⟩
  · exact hsame.inv (inv_applyAll h hinputs) (ids_groupBatch h)
  · rw [hidle]
    exact inv_seeded h hinputs (checkGroup_ok hcheck).2 hissue

theorem once_groupBatch (h : Inv event s) (honce : Once s) (hinputs : ∀ input ∈ inputs, Delivered event input)
    (hcheck : checkGroup inputs = .ok (some first)) (hmeets : GroupMeets s first inputs) :
    Once (groupBatch s first inputs).1 := by
  rcases groupBatch_spec h hinputs hcheck hmeets with ⟨hsame, _⟩ | ⟨hidle, _⟩
  · exact hsame.once (once_applyAll honce)
  · rw [hidle]
    exact once_seeded honce

/-- A group leaves what its events leave one by one. -/
theorem recordGroup_same (h : Inv event s) (hinputs : ∀ input ∈ inputs, Delivered event input)
    (hmeets : Meets s (.group inputs)) (hgroup : recordGroup s inputs = .ok t) : Same t (inputs.foldl record s) := by
  rw [recordGroup] at hgroup
  cases hcheck : checkGroup inputs with
  | error refusal =>
    rw [hcheck] at hgroup
    cases hgroup
  | ok checked =>
    rw [hcheck] at hgroup
    cases checked with
    | none =>
      cases inputs with
      | nil =>
        cases hgroup
        exact ⟨rfl, rfl, rfl, rfl⟩
      | cons input rest =>
        rw [checkGroup] at hcheck
        split at hcheck
        · cases hcheck
        split at hcheck
        · cases hcheck
        · cases hcheck
    | some first =>
      have ht : (if (groupBatch s first inputs).2 then (groupBatch s first inputs).1
          else inputs.foldl record (groupBatch s first inputs).1) = t := Except.ok.inj hgroup
      rw [recordAll_eq h hinputs, ← ht]
      rcases groupBatch_spec h hinputs hcheck (hmeets first hcheck) with ⟨hsame, hdone⟩ | ⟨hidle, hissue⟩
      · rw [hdone]
        exact hsame
      · have hseeded := inv_seeded h hinputs (checkGroup_ok hcheck).2 hissue
        rw [hidle]
        show Same (inputs.foldl record (seeded s inputs)) _
        rw [recordAll_eq hseeded hinputs, applyAll_seeded]
        exact ⟨rfl, rfl, rfl, rfl⟩

end

/-! ## Runs -/

section
variable {event : String → String → RecordOccurrenceInput} {s : State}

theorem inv_mutate (h : Inv event s) (sourceId fingerprint : String) (mutation : IssueMutation) :
    Inv event (mutate s sourceId fingerprint mutation) := by
  rw [mutate]
  split
  · exact h
  split
  · exact h
  · refine ⟨h.keys, h.rows, h.quiet, fun row hrow => setIssue_ne_none (h.issues row hrow), ids_setIssue ?_ ?_⟩
    · intro source print issue hissue id hid
      exact Nat.lt_succ_of_lt (h.ids source print issue hissue id hid)
    · intro id hid
      cases hid
      exact Nat.lt_succ_self _

theorem once_mutate (h : Once s) (sourceId fingerprint : String) (mutation : IssueMutation) :
    Once (mutate s sourceId fingerprint mutation) := by
  rw [mutate]
  split
  · exact h
  split
  · exact h
  · exact ⟨h.count, h.answered⟩

variable {issues : String → String → Option IssueRow}

theorem inv_step (h : Inv event s) (honce : Once s) {st : Step} (hst : StepDelivered event st) (hmeets : Meets s st) :
    Inv event (step s st) ∧ Once (step s st) := by
  cases st with
  | record input =>
    show Inv event (record s input) ∧ Once (record s input)
    rw [record_eq h hst]
    exact ⟨inv_applyEvent h hst, once_applyEvent honce⟩
  | group inputs =>
    show Inv event (group s inputs) ∧ Once (group s inputs)
    rw [group]
    split
    · rename_i first hcheck
      exact ⟨inv_groupBatch h hst hcheck (hmeets first hcheck), once_groupBatch h honce hst hcheck (hmeets first hcheck)⟩
    · exact ⟨h, honce⟩
  | mutate sourceId fingerprint mutation =>
    exact ⟨inv_mutate h sourceId fingerprint mutation, once_mutate honce sourceId fingerprint mutation⟩

theorem inv_after {steps : List Step} (h : Inv event s) (honce : Once s) (hsteps : ∀ st ∈ steps, StepDelivered event st)
    (hmeets : MeetsAll s steps) : Inv event (after s steps) ∧ Once (after s steps) := by
  induction steps generalizing s with
  | nil => exact ⟨h, honce⟩
  | cons st rest ih =>
    obtain ⟨hinv, honce'⟩ := inv_step h honce (hsteps st List.mem_cons_self) hmeets.1
    exact ih hinv honce' (fun other hother => hsteps other (List.mem_cons_of_mem _ hother)) hmeets.2

theorem inv_init (event : String → String → RecordOccurrenceInput) : Inv event init := by
  refine ⟨List.nodup_nil, ?_, ?_, ?_, ?_⟩
  · intro row hrow
    cases hrow
  · intro row hrow
    cases hrow
  · intro row hrow
    cases hrow
  · intro sourceId fingerprint issue hissue
    cases hissue

theorem once_init : Once init := by
  refine ⟨fun key => rfl, ?_⟩
  intro answer hanswer
  cases hanswer

/-! ## Reopening -/

def IsIngest : Step → Prop
  | .mutate _ _ _ => False
  | _ => True

/-- No issue changes its status, and nothing is written to their activity. -/
def Quiet (s t : State) : Prop :=
  t.activity = s.activity ∧ ∀ sourceId fingerprint issue, s.issues sourceId fingerprint = some issue →
    ∃ issue', t.issues sourceId fingerprint = some issue' ∧ issue'.status = issue.status

/-- One issue that was not open is reopened by an occurrence that satisfies its rule, with one
    entry; no other issue changes. -/
def Reopens (s t : State) (input : RecordOccurrenceInput) : Prop :=
  ∃ issue issue' kind, s.issues input.sourceId input.fingerprint = some issue ∧ issue.status ≠ .opened ∧
    isApplied s.occurrences input.key = false ∧
    transitionOf (appliedCount s.occurrences (rowOf input)) issue (rowOf input) = some kind ∧
    t.issues input.sourceId input.fingerprint = some issue' ∧ issue'.status = .opened ∧
    t.activity = s.activity ++ [⟨input.sourceId, input.fingerprint, .transition kind input.release input.receivedAt⟩] ∧
    ∀ sourceId fingerprint, (sourceId, fingerprint) ≠ (input.sourceId, input.fingerprint) →
      t.issues sourceId fingerprint = s.issues sourceId fingerprint

theorem setIssue_other {sourceId fingerprint source print : String} {issue : IssueRow}
    (h : (source, print) ≠ (sourceId, fingerprint)) :
    setIssue issues sourceId fingerprint issue source print = issues source print := by
  rw [setIssue, if_neg]
  rintro ⟨rfl, rfl⟩
  exact h rfl

/-- Setting an issue to one of the same status keeps every status. -/
theorem status_setIssue {sourceId fingerprint : String} {issue : IssueRow}
    (h : ∀ prior, issues sourceId fingerprint = some prior → issue.status = prior.status) :
    ∀ source print other, issues source print = some other →
      ∃ other', setIssue issues sourceId fingerprint issue source print = some other' ∧ other'.status = other.status := by
  intro source print other hother
  by_cases heq : (source, print) = (sourceId, fingerprint)
  · cases heq
    exact ⟨issue, setIssue_self _ _ _ _, h other hother⟩
  · exact ⟨other, (setIssue_other heq).trans hother, rfl⟩

theorem applyEvent_leaves (s : State) (input : RecordOccurrenceInput) :
    Quiet s (applyEvent s input) ∨ Reopens s (applyEvent s input) input := by
  rw [applyEvent]
  split
  · exact .inl ⟨rfl, fun sourceId fingerprint issue hissue => ⟨issue, hissue, rfl⟩⟩
  · rename_i happlied
    rw [Bool.not_eq_true] at happlied
    cases hissue : s.issues input.sourceId input.fingerprint with
    | none =>
      have hkind : kindOf s input = none := by
        rw [kindOf, hissue]
        rfl
      refine .inl ⟨by simp [hkind], status_setIssue fun prior hprior => ?_⟩
      rw [hissue] at hprior
      cases hprior
    | some issue =>
      cases hkind : kindOf s input with
      | none =>
        refine .inl ⟨by simp, status_setIssue fun prior hprior => ?_⟩
        rw [hissue] at hprior
        cases hprior
        rfl
      | some kind =>
        have hrule : transitionOf (appliedCount s.occurrences (rowOf input)) issue (rowOf input) = some kind := by
          rwa [kindOf, hissue, Option.bind_some] at hkind
        exact .inr ⟨issue, _, kind, hissue, transitionOf_status hrule, happlied, hrule, setIssue_self _ _ _ _, rfl, rfl,
          fun sourceId fingerprint hne => setIssue_other hne⟩

theorem group_quiet (s : State) (inputs : List RecordOccurrenceInput) : Quiet s (group s inputs) := by
  rw [group]
  split
  · rename_i first hcheck
    refine ⟨rfl, ?_⟩
    show ∀ sourceId fingerprint issue, s.issues sourceId fingerprint = some issue → ∃ issue',
      (Option.elim (groupIssueUpsert s first _) s.issues (setIssue s.issues _ _)) sourceId fingerprint = some issue' ∧ _
    cases hupsert : groupIssueUpsert s first ((insertAll s.occurrences inputs).1.filter (isDue first inputs)) with
    | none => exact fun sourceId fingerprint issue hissue => ⟨issue, hissue, rfl⟩
    | some issue =>
      refine status_setIssue fun prior hprior => ?_
      rw [groupIssueUpsert] at hupsert
      split at hupsert
      · rw [hprior] at hupsert
        dsimp only at hupsert
        split at hupsert
        · cases hupsert
          rfl
        · cases hupsert
      · cases hupsert
  · exact ⟨rfl, fun sourceId fingerprint issue hissue => ⟨issue, hissue, rfl⟩⟩

theorem step_leaves (h : Inv event s) {st : Step} (hst : StepDelivered event st) (hingest : IsIngest st) :
    Quiet s (step s st) ∨ ∃ input, st = .record input ∧ Reopens s (step s st) input := by
  cases st with
  | record input =>
    show Quiet s (record s input) ∨ _
    rw [record_eq h hst]
    rcases applyEvent_leaves s input with hquiet | hreopens
    · exact .inl hquiet
    · refine .inr ⟨input, rfl, ?_⟩
      show Reopens s (record s input) input
      rwa [record_eq h hst]
  | group inputs => exact .inl (group_quiet s inputs)
  | mutate sourceId fingerprint mutation => exact absurd hingest id

end

/-! ## The whole -/

/-- Each event has one row; where a call answered it, it is applied, and one call answered that it
    is no duplicate. -/
def ExactlyOnce (s : State) : Prop := (s.occurrences.map Occurrence.key).Nodup ∧ Once s

theorem ingest_exact (event : String → String → RecordOccurrenceInput) (steps : List Step)
    (hsteps : ∀ st ∈ steps, StepDelivered event st)
    (hmeets : MeetsAll init steps) :
    ExactlyOnce (after init steps) ∧
      (∀ inputs t, (∀ input ∈ inputs, Delivered event input) → Meets (after init steps) (.group inputs) →
        recordGroup (after init steps) inputs = .ok t → Same t (inputs.foldl record (after init steps))) ∧
      ∀ st, StepDelivered event st → IsIngest st →
        Quiet (after init steps) (step (after init steps) st) ∨
          ∃ input, st = .record input ∧ Reopens (after init steps) (step (after init steps) st) input := by
  obtain ⟨hinv, honce⟩ := inv_after (inv_init event) once_init hsteps hmeets
  exact ⟨⟨hinv.keys, honce⟩, fun inputs t hinputs hgroup ht => recordGroup_same hinv hinputs hgroup ht,
    fun st hst hingest => step_leaves hinv hst hingest⟩

def sampleEvent (_ eventId : String) : RecordOccurrenceInput :=
  ⟨"shop", "fp", eventId, "TypeError", none, "error", some "r1", if eventId = "late" then 20 else 10⟩

/-- A group, an operator who ignores the issue, a group that dies, and the events delivered one by
    one. -/
def deliveredAgain : List Step :=
  [.group [sampleEvent "shop" "a", sampleEvent "shop" "b"], .mutate "shop" "fp" (.status .ignored),
    .group [sampleEvent "shop" "b", sampleEvent "shop" "late"], .mutate "shop" "fp" (.status .opened),
    .record (sampleEvent "shop" "late")]

theorem deliveredAgain_delivered : ∀ st ∈ deliveredAgain, StepDelivered (fun _ eventId => sampleEvent "shop" eventId) st := by
  intro st hst
  simp only [deliveredAgain, List.mem_cons, List.not_mem_nil, or_false] at hst
  rcases hst with rfl | rfl | rfl | rfl | rfl <;> simp [StepDelivered, Delivered, sampleEvent]

theorem meets_group {s : State} {inputs : List RecordOccurrenceInput} {first : RecordOccurrenceInput}
    (hcheck : checkGroup inputs = .ok (some first))
    (h : GroupMeets s first inputs) : Meets s (.group inputs) := by
  intro other hother
  rw [hcheck] at hother
  cases hother
  exact h

theorem deliveredAgain_meets : MeetsAll init deliveredAgain :=
  ⟨meets_group rfl (by decide), trivial, meets_group rfl (by decide), trivial, trivial, trivial⟩

theorem deliveredAgain_once : ExactlyOnce (after init deliveredAgain) :=
  (ingest_exact (fun _ eventId => sampleEvent "shop" eventId) deliveredAgain deliveredAgain_delivered deliveredAgain_meets).1

/-! ## Where a group does not meet its condition -/

/-- The second group dies on an ignored issue, an operator reopens it, and the same group comes
    again. -/
def waitingGroup : List Step :=
  [.group [sampleEvent "shop" "a"], .mutate "shop" "fp" (.status .ignored), .group [sampleEvent "shop" "b"],
    .mutate "shop" "fp" (.status .opened), .group [sampleEvent "shop" "b"]]

/-- Its event is applied and every call that answered said it is a duplicate; and a group that
    makes its issue, its first event not its earliest, dates the issue otherwise than its events do
    one by one. -/
theorem waiting_group_unanswered :
    (∀ st ∈ waitingGroup, StepDelivered (fun _ eventId => sampleEvent "shop" eventId) st) ∧
    ¬ExactlyOnce (after init waitingGroup) ∧
      ∃ t, recordGroup init [sampleEvent "shop" "late", sampleEvent "shop" "a"] = .ok t ∧
        ¬Same t ([sampleEvent "shop" "late", sampleEvent "shop" "a"].foldl record init) := by
  refine ⟨?_, ?_, _, rfl, ?_⟩
  · intro st hst
    simp only [waitingGroup, List.mem_cons, List.not_mem_nil, or_false] at hst
    rcases hst with rfl | rfl | rfl | rfl | rfl <;> simp [StepDelivered, Delivered, sampleEvent]
  · rintro ⟨_, honce⟩
    have hcount := honce.count ("shop", "b")
    revert hcount
    decide
  · rintro ⟨_, hissues, _, _⟩
    have hseen := congrArg (fun issues : String → String → Option IssueRow => (issues "shop" "fp").map IssueRow.firstSeen) hissues
    revert hseen
    decide

end Fabrika.Operations.Ingest
