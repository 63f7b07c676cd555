/-
  Fabrika.Operations.IngestProofs — what the ingest batches leave.

  `record_eq`: where events come as they are, a `record` batch is `applyEvent`: nothing but the
  answer for an event already applied, and the one application of any other.
-/

import Mathlib.Data.List.Nodup
import Fabrika.Operations.Ingest

namespace Fabrika.Operations.Ingest

open Fabrika.Lib

/-! ## Rows of one event -/

def isApplied (rows : List Occurrence) (key : Key) : Bool := rows.any fun row => row.key = key && row.applied

/-- The waiting row of an event, applied with its transition. -/
def settle (key : Key) (kind : Option TransitionKind) (rows : List Occurrence) : List Occurrence :=
  rows.map fun row => if isWaiting key row then { row with transitionKind := kind, applied := true } else row

theorem isWaiting_iff {key : Key} {row : Occurrence} : isWaiting key row = true ↔ row.key = key ∧ row.applied = false := by
  simp [isWaiting]

theorem isWaiting_ne {key : Key} {row : Occurrence} (h : row.key ≠ key) : isWaiting key row = false := by
  simp [isWaiting, h]

variable {rows : List Occurrence} {issue : IssueRow}

theorem stored_iff {key : Key} : stored rows key = true ↔ key ∈ rows.map Occurrence.key := by
  simp [stored]

theorem isApplied_iff {key : Key} : isApplied rows key = true ↔ ∃ row ∈ rows, row.key = key ∧ row.applied = true := by
  simp [isApplied]

section
variable {pre post : List Occurrence} {row : Occurrence} {key : Key} (hpre : ∀ other ∈ pre, other.key ≠ key)
variable (hpost : ∀ other ∈ post, other.key ≠ key)
include hpre hpost

/-- A change of one event's row only. -/
theorem map_at {f : Occurrence → Occurrence} (hf : ∀ other, other.key ≠ key → f other = other) :
    (pre ++ row :: post).map f = pre ++ f row :: post := by
  have hid : ∀ rows : List Occurrence, (∀ other ∈ rows, other.key ≠ key) → rows.map f = rows := by
    intro rows hrows
    exact (List.map_congr_left fun other hother => hf other (hrows other hother)).trans (List.map_id rows)
  rw [List.map_append, List.map_cons, hid pre hpre, hid post hpost]

/-- A test of one event's row only. -/
theorem any_at {p : Occurrence → Bool} (hp : ∀ other, other.key ≠ key → p other = false) :
    (pre ++ row :: post).any p = p row := by
  have hno : ∀ rows : List Occurrence, (∀ other ∈ rows, other.key ≠ key) → rows.any p = false := by
    intro rows hrows
    rw [List.any_eq_false]
    intro other hother
    simp [hp other (hrows other hother)]
  rw [List.any_append, List.any_cons, hno pre hpre, hno post hpost, Bool.false_or, Bool.or_false]

end

/-- An event's row among the others. -/
theorem split_at (hkeys : (rows.map Occurrence.key).Nodup) {row : Occurrence} (hrow : row ∈ rows) :
    ∃ pre post, rows = pre ++ row :: post ∧ (∀ other ∈ pre, other.key ≠ row.key) ∧ ∀ other ∈ post, other.key ≠ row.key := by
  obtain ⟨pre, post, rfl⟩ := List.append_of_mem hrow
  refine ⟨pre, post, rfl, ?_, ?_⟩
  · intro other hother heq
    rw [List.map_append, List.map_cons, List.nodup_append] at hkeys
    exact hkeys.2.2 _ (List.mem_map_of_mem hother) _ List.mem_cons_self heq
  · intro other hother heq
    rw [List.map_append, List.map_cons, List.nodup_append, List.nodup_cons] at hkeys
    exact hkeys.2.1.1 (heq ▸ List.mem_map_of_mem hother)

theorem keys_map {f : Occurrence → Occurrence} (hf : ∀ row, (f row).key = row.key) :
    (rows.map f).map Occurrence.key = rows.map Occurrence.key := by
  rw [List.map_map]
  exact List.map_congr_left fun row _ => hf row

theorem keys_insertOccurrence (rows : List Occurrence) (input : RecordOccurrenceInput) :
    (insertOccurrence rows input).map Occurrence.key =
      if stored rows input.key then rows.map Occurrence.key else rows.map Occurrence.key ++ [input.key] := by
  rw [insertOccurrence]
  split
  · rfl
  · rw [List.map_append]
    rfl

theorem nodup_insertOccurrence (h : (rows.map Occurrence.key).Nodup) (input : RecordOccurrenceInput) :
    ((insertOccurrence rows input).map Occurrence.key).Nodup := by
  rw [keys_insertOccurrence]
  split
  · exact h
  · rename_i hstored
    rw [stored_iff] at hstored
    exact List.nodup_append.mpr ⟨h, List.nodup_singleton _,
      by rintro a ha b hb rfl; exact hstored (List.mem_singleton.mp hb ▸ ha)⟩

theorem appliedCount_insertOccurrence (rows : List Occurrence) (input : RecordOccurrenceInput) (row : Occurrence) :
    appliedCount (insertOccurrence rows input) row = appliedCount rows row := by
  rw [insertOccurrence]
  split
  · rfl
  · simp [appliedCount, rowOf]

/-! ## Events come as they are -/

section
variable (event : String → String → RecordOccurrenceInput)

/-- A delivery of an event is the event as it is. -/
def Delivered (input : RecordOccurrenceInput) : Prop := event input.sourceId input.eventId = input

/-- The row of an event, applied or not. -/
def IsRowOf (input : RecordOccurrenceInput) (row : Occurrence) : Prop :=
  row = { rowOf input with transitionKind := row.transitionKind, applied := row.applied }

structure Inv (s : State) : Prop where
  keys : (s.occurrences.map Occurrence.key).Nodup
  rows : ∀ row ∈ s.occurrences, ∃ input, Delivered event input ∧ IsRowOf input row
  quiet : ∀ row ∈ s.occurrences, row.applied = false → row.transitionKind = none
  issues : ∀ row ∈ s.occurrences, s.issues row.sourceId row.fingerprint ≠ none
  ids : ∀ sourceId fingerprint issue, s.issues sourceId fingerprint = some issue → ∀ id, issue.lastMutationId = some id →
    id < s.nextId

end

section
variable {event : String → String → RecordOccurrenceInput} {s : State} {input : RecordOccurrenceInput}

theorem Delivered.eq {other : RecordOccurrenceInput} (h : Delivered event input) (h' : Delivered event other)
    (hkey : other.key = input.key) :
    other = input := by
  rw [RecordOccurrenceInput.key, RecordOccurrenceInput.key, Prod.mk.injEq] at hkey
  rw [Delivered] at h h'
  rw [← h, ← h', hkey.1, hkey.2]

theorem IsRowOf.key {row : Occurrence} (h : IsRowOf input row) : row.key = input.key := by
  rw [IsRowOf] at h
  rw [h]
  rfl

/-- The rows of a delivered event are its own. -/
theorem Inv.row (h : Inv event s) (hinput : Delivered event input) {row : Occurrence} (hrow : row ∈ s.occurrences)
    (hkey : row.key = input.key) : IsRowOf input row := by
  obtain ⟨other, hother, hrowOf⟩ := h.rows row hrow
  rwa [hinput.eq hother (hrowOf.key.symm.trans hkey)] at hrowOf

/-- An event that is not applied waits, once inserted, as its plain row. -/
theorem Inv.waiting (h : Inv event s) (hinput : Delivered event input) (happlied : isApplied s.occurrences input.key = false) :
    rowOf input ∈ insertOccurrence s.occurrences input := by
  rw [insertOccurrence]
  split
  · rename_i hstored
    obtain ⟨row, hrow, hkey⟩ := List.mem_map.mp ((stored_iff).mp hstored)
    have hwaits : row.applied = false := by
      by_contra hne
      have : isApplied s.occurrences input.key = true := (isApplied_iff).mpr ⟨row, hrow, hkey, by simpa using hne⟩
      rw [this] at happlied
      cases happlied
    have heq := h.row hinput hrow hkey
    rw [IsRowOf, h.quiet row hrow hwaits, hwaits] at heq
    rwa [heq] at hrow
  · simp

end

/-! ## One event -/

def kindOf (s : State) (input : RecordOccurrenceInput) : Option TransitionKind :=
  (s.issues input.sourceId input.fingerprint).bind fun issue =>
    transitionOf (appliedCount s.occurrences (rowOf input)) issue (rowOf input)

/-- The issue once an event is applied. -/
def applyIssue (issue : Option IssueRow) (input : RecordOccurrenceInput) (kind : Option TransitionKind) (id : Nat) : IssueRow :=
  match issue with
  | none => newIssue input input.receivedAt input.receivedAt
  | some issue =>
    if kind.isSome then reopened (seen issue input.receivedAt) kind input.receivedAt id else seen issue input.receivedAt

def applyEvent (s : State) (input : RecordOccurrenceInput) : State :=
  if isApplied s.occurrences input.key then { s with nextId := s.nextId + 1, answers := s.answers ++ [⟨input.key, true⟩] }
  else
    let kind := kindOf s input
    { occurrences := settle input.key kind (insertOccurrence s.occurrences input)
      issues := setIssue s.issues input.sourceId input.fingerprint
        (applyIssue (s.issues input.sourceId input.fingerprint) input kind s.nextId)
      activity := s.activity ++ (kind.map fun kind =>
        (⟨input.sourceId, input.fingerprint, .transition kind input.release input.receivedAt⟩ : Activity)).toList
      nextId := s.nextId + 1
      answers := s.answers ++ [⟨input.key, false⟩] }

theorem transitionOf_status {count : Nat} {row : Occurrence} {kind : TransitionKind}
    (h : transitionOf count issue row = some kind) : issue.status ≠ .opened := by
  intro hopened
  simp [transitionOf, regresses, unsnoozes, hopened] at h

section
variable {event : String → String → RecordOccurrenceInput} {s : State} {input : RecordOccurrenceInput}

/-- Nothing waits: the batch changes nothing. -/
theorem record_applied (h : Inv event s) (happlied : isApplied s.occurrences input.key = true) :
    record s input = { s with nextId := s.nextId + 1, answers := s.answers ++ [⟨input.key, true⟩] } := by
  obtain ⟨row, hrow, hkey, hdone⟩ := (isApplied_iff).mp happlied
  have hinsert : insertOccurrence s.occurrences input = s.occurrences :=
    if_pos ((stored_iff).mpr (hkey ▸ List.mem_map_of_mem hrow))
  have hnone : ∀ other ∈ s.occurrences, isWaiting input.key other = false := by
    intro other hother
    by_cases hsame : other.key = input.key
    · have heq : other = row := List.inj_on_of_nodup_map h.keys hother hrow (hsame.trans hkey.symm)
      simp [isWaiting, heq, hdone]
    · exact isWaiting_ne hsame
  have hset : setTransition s.issues input.key s.occurrences = s.occurrences := by
    rw [setTransition]
    refine (List.map_congr_left fun other hother => ?_).trans (List.map_id _)
    rw [hnone other hother]
    rfl
  have hmark : markApplied input.key s.occurrences = s.occurrences := by
    rw [markApplied]
    refine (List.map_congr_left fun other hother => ?_).trans (List.map_id _)
    rw [hnone other hother]
    rfl
  have hany : s.occurrences.any (isWaiting input.key) = false := by
    rw [List.any_eq_false]
    intro other hother
    rw [hnone other hother]
    exact Bool.false_ne_true
  have htransition : s.occurrences.any (isTransition input.key) = false := by
    rw [List.any_eq_false]
    intro other hother
    rw [isTransition, hnone other hother]
    exact Bool.false_ne_true
  have hactivity : ∀ issues, activityOf issues input s.occurrences s.nextId = [] := by
    intro issues
    rw [activityOf, List.filterMap_eq_nil_iff]
    intro other hother
    rw [hnone other hother]
    simp
  have hreopen : ∀ issues, issueReopen issues input s.occurrences s.nextId = none := by
    intro issues
    simp [issueReopen, htransition]
  simp only [record, hinsert, hset, issueUpsert, hany, upserted, hreopen, hactivity, hmark]
  simp

theorem issueUpsert_waiting (h : rows.any (isWaiting input.key) = true) :
    issueUpsert s input rows = some ((s.issues input.sourceId input.fingerprint).elim
      (newIssue input input.receivedAt input.receivedAt) fun issue => seen issue input.receivedAt) := by
  rw [issueUpsert, if_pos h]
  cases s.issues input.sourceId input.fingerprint <;> rfl

@[simp] theorem setIssue_self (issues : String → String → Option IssueRow) (sourceId fingerprint : String) (issue : IssueRow) :
    setIssue issues sourceId fingerprint issue sourceId fingerprint = some issue := by
  simp [setIssue]

theorem setIssue_setIssue (issues : String → String → Option IssueRow) (sourceId fingerprint : String) (first second : IssueRow) :
    setIssue (setIssue issues sourceId fingerprint first) sourceId fingerprint second =
    setIssue issues sourceId fingerprint second := by
  funext source print
  simp only [setIssue]
  split <;> rfl

/-- An event's row once its transition is set. -/
def transitioned (input : RecordOccurrenceInput) (kind : Option TransitionKind) : Occurrence :=
  { rowOf input with transitionKind := kind }

theorem isWaiting_transitioned (input : RecordOccurrenceInput) (kind : Option TransitionKind) :
    isWaiting input.key (transitioned input kind) = true := by
  simp [isWaiting, transitioned, rowOf, Occurrence.key, RecordOccurrenceInput.key]

theorem isWaiting_rowOf (input : RecordOccurrenceInput) : isWaiting input.key (rowOf input) = true :=
  isWaiting_transitioned input none

section
variable {pre post : List Occurrence} {kind : Option TransitionKind} (hpre : ∀ other ∈ pre, other.key ≠ input.key)
  (hpost : ∀ other ∈ post, other.key ≠ input.key)
include hpre hpost

theorem setTransition_at (issues : String → String → Option IssueRow) :
    setTransition issues input.key (pre ++ rowOf input :: post) =
      pre ++ transitioned input ((issues input.sourceId input.fingerprint).bind fun issue =>
        transitionOf (appliedCount (pre ++ rowOf input :: post) (rowOf input)) issue (rowOf input)) :: post := by
  rw [setTransition, map_at hpre hpost (fun other hne => by rw [isWaiting_ne hne]; rfl), if_pos (isWaiting_rowOf input)]
  rfl

theorem waiting_at : (pre ++ transitioned input kind :: post).any (isWaiting input.key) = true := by
  rw [any_at hpre hpost fun other hne => isWaiting_ne hne]
  exact isWaiting_transitioned input kind

theorem isTransition_at : (pre ++ transitioned input kind :: post).any (isTransition input.key) = kind.isSome := by
  rw [any_at hpre hpost (fun other hne => by rw [isTransition, isWaiting_ne hne]; rfl), isTransition, isWaiting_transitioned]
  rfl

theorem markApplied_at : markApplied input.key (pre ++ transitioned input kind :: post) =
    settle input.key kind (pre ++ rowOf input :: post) := by
  rw [markApplied, settle, map_at hpre hpost (fun other hne => by rw [isWaiting_ne hne]; rfl),
    map_at hpre hpost (fun other hne => by rw [isWaiting_ne hne]; rfl), if_pos (isWaiting_transitioned input kind),
    if_pos (isWaiting_rowOf input)]
  rfl

omit hpost in
theorem find_at : ((pre ++ transitioned input kind :: post).find? fun row => row.key = input.key) =
    some (transitioned input kind) := by
  have hnone : (pre.find? fun row => row.key = input.key) = none := by
    rw [List.find?_eq_none]
    intro other hother
    simpa using hpre other hother
  rw [List.find?_append, hnone, Option.none_or, List.find?_cons_of_pos]
  exact decide_eq_true rfl

theorem activityOf_at (issues : String → String → Option IssueRow) (id : Nat) :
    activityOf issues input (pre ++ transitioned input kind :: post) id =
      if (issues input.sourceId input.fingerprint).any (fun issue => issue.lastMutationId = some id) then
        (kind.map fun kind =>
          (⟨input.sourceId, input.fingerprint, .transition kind input.release input.receivedAt⟩ : Activity)).toList
      else [] := by
  have hnone : ∀ rows : List Occurrence, (∀ other ∈ rows, other.key ≠ input.key) → activityOf issues input rows id = [] := by
    intro rows hrows
    rw [activityOf, List.filterMap_eq_nil_iff]
    intro other hother
    rw [isWaiting_ne (hrows other hother)]
    simp
  have happend : activityOf issues input (pre ++ transitioned input kind :: post) id =
      activityOf issues input pre id ++ (activityOf issues input [transitioned input kind] id ++
        activityOf issues input post id) := by
    rw [← List.singleton_append, activityOf, List.filterMap_append, List.filterMap_append]
    rfl
  rw [happend, hnone pre hpre, hnone post hpost, List.nil_append, List.append_nil, activityOf, List.filterMap_cons,
    isWaiting_transitioned]
  by_cases hlast : (issues input.sourceId input.fingerprint).any (fun issue => decide (issue.lastMutationId = some id)) = true
  · cases kind <;> simp [transitioned, rowOf, hlast]
  · cases kind <;> simp [transitioned, rowOf, hlast]

end

/-- The event waits: the batch is its one application. -/
theorem record_waiting (h : Inv event s) (hinput : Delivered event input) (happlied : isApplied s.occurrences input.key = false) :
    record s input = applyEvent s input := by
  obtain ⟨pre, post, hsplit, hpre, hpost⟩ := split_at (nodup_insertOccurrence h.keys input) (h.waiting hinput happlied)
  have hset : setTransition s.issues input.key (pre ++ rowOf input :: post) = pre ++
      transitioned input (kindOf s input) :: post := by
    rw [setTransition_at hpre hpost, ← hsplit, appliedCount_insertOccurrence]
    rfl
  simp only [record, hsplit, hset, issueUpsert_waiting (waiting_at hpre hpost), activityOf_at hpre hpost,
    markApplied_at hpre hpost, applyEvent,
    happlied, upserted, issueReopen, isTransition_at hpre hpost, find_at hpre, Option.elim_some, setIssue_self, Option.bind_some,
    Bool.false_eq_true, if_false]
  cases hissue : s.issues input.sourceId input.fingerprint with
  | none =>
    have hkind : kindOf s input = none := by rw [kindOf, hissue]; rfl
    simp [hkind, newIssue, applyIssue]
  | some issue =>
    cases hkind : kindOf s input with
    | none => simp [applyIssue, seen]
    | some kind =>
      have hstatus : issue.status ≠ .opened := by
        rw [kindOf, hissue, Option.bind_some] at hkind
        exact transitionOf_status hkind
      simp [applyIssue, seen, hstatus, transitioned, setIssue_setIssue, reopened]

theorem record_eq (h : Inv event s) (hinput : Delivered event input) : record s input = applyEvent s input := by
  cases happlied : isApplied s.occurrences input.key with
  | true =>
    rw [record_applied h happlied, applyEvent, if_pos happlied]
  | false => exact record_waiting h hinput happlied

/-! ## The invariant -/

theorem mem_insertOccurrence {row : Occurrence} (h : row ∈ insertOccurrence rows input) : row ∈ rows ∨ row = rowOf input := by
  rw [insertOccurrence] at h
  split at h
  · exact .inl h
  · simpa using h

variable {issues : String → String → Option IssueRow}

theorem setIssue_ne_none {sourceId fingerprint source print : String} (h : issues source print ≠ none) :
    setIssue issues sourceId fingerprint issue source print ≠ none := by
  rw [setIssue]
  split
  · exact Option.some_ne_none _
  · exact h

theorem ids_setIssue {bound : Nat} {sourceId fingerprint : String}
    (h : ∀ source print other, issues source print = some other → ∀ id, other.lastMutationId = some id → id < bound)
    (hissue : ∀ id, issue.lastMutationId = some id → id < bound) :
    ∀ source print other, setIssue issues sourceId fingerprint issue source print = some other → ∀ id,
    other.lastMutationId = some id → id < bound := by
  intro source print other hother
  rw [setIssue] at hother
  split at hother
  · cases hother
    exact hissue
  · exact h source print other hother

theorem lastMutationId_applyIssue {issue : Option IssueRow} {kind : Option TransitionKind} {bound : Nat}
    (h : ∀ other, issue = some other → ∀ id, other.lastMutationId = some id → id < bound) :
    ∀ id, (applyIssue issue input kind bound).lastMutationId = some id → id < bound + 1 := by
  intro id hid
  cases issue with
  | none => cases hid
  | some issue =>
    rw [applyIssue] at hid
    split at hid
    · cases hid
      omega
    · exact Nat.lt_succ_of_lt (h issue rfl id hid)

theorem mem_settle {key : Key} {kind : Option TransitionKind} {row : Occurrence} (h : row ∈ settle key kind rows) :
    ∃ other ∈ rows, (isWaiting key other = true ∧ row = { other with transitionKind := kind, applied := true }) ∨
      (isWaiting key other = false ∧ row = other) := by
  obtain ⟨other, hother, rfl⟩ := List.mem_map.mp h
  cases hwaiting : isWaiting key other with
  | true => exact ⟨other, hother, .inl ⟨hwaiting, by simp⟩⟩
  | false => exact ⟨other, hother, .inr ⟨hwaiting, by simp⟩⟩

theorem keys_settle (key : Key) (kind : Option TransitionKind) (rows : List Occurrence) :
    (settle key kind rows).map Occurrence.key = rows.map Occurrence.key := by
  refine keys_map fun row => ?_
  split <;> rfl

theorem inv_applyEvent (h : Inv event s) (hinput : Delivered event input) : Inv event (applyEvent s input) := by
  have hids : ∀ sourceId fingerprint issue, s.issues sourceId fingerprint = some issue → ∀ id, issue.lastMutationId = some id →
      id < s.nextId + 1 :=
    fun sourceId fingerprint issue hissue id hid => Nat.lt_succ_of_lt (h.ids sourceId fingerprint issue hissue id hid)
  rw [applyEvent]
  split
  · exact ⟨h.keys, h.rows, h.quiet, h.issues, hids⟩
  · refine ⟨?_, ?_, ?_, ?_, ids_setIssue hids (lastMutationId_applyIssue fun other hother => h.ids _ _ other hother)⟩
    · rw [keys_settle]
      exact nodup_insertOccurrence h.keys input
    · intro row hrow
      obtain ⟨other, hother, ⟨_, rfl⟩ | ⟨_, rfl⟩⟩ := mem_settle hrow
      · rcases mem_insertOccurrence hother with hold | rfl
        · obtain ⟨origin, horigin, hof⟩ := h.rows other hold
          rw [IsRowOf] at hof
          exact ⟨origin, horigin, by rw [IsRowOf, hof]⟩
        · exact ⟨input, hinput, rfl⟩
      · rcases mem_insertOccurrence hother with hold | rfl
        · exact h.rows _ hold
        · exact ⟨input, hinput, rfl⟩
    · intro row hrow hwaits
      obtain ⟨other, hother, ⟨_, rfl⟩ | ⟨hwaiting, rfl⟩⟩ := mem_settle hrow
      · cases hwaits
      · rcases mem_insertOccurrence hother with hold | rfl
        · exact h.quiet _ hold hwaits
        · rfl
    · intro row hrow
      have hkeeps : ∀ other ∈ insertOccurrence s.occurrences input,
          setIssue s.issues input.sourceId input.fingerprint
            (applyIssue (s.issues input.sourceId input.fingerprint) input (kindOf s input) s.nextId) other.sourceId
              other.fingerprint ≠ none := by
        intro other hother
        rcases mem_insertOccurrence hother with hold | rfl
        · exact setIssue_ne_none (h.issues other hold)
        · exact ne_of_eq_of_ne (setIssue_self _ _ _ _) (Option.some_ne_none _)
      obtain ⟨other, hother, ⟨_, rfl⟩ | ⟨_, rfl⟩⟩ := mem_settle hrow
      · exact hkeeps other hother
      · exact hkeeps _ hother

section
variable {inputs : List RecordOccurrenceInput} (h : Inv event s) (hinputs : ∀ input ∈ inputs, Delivered event input)
include h hinputs

theorem inv_applyAll : Inv event (inputs.foldl applyEvent s) := by
  induction inputs generalizing s with
  | nil => exact h
  | cons input rest ih =>
    exact ih (inv_applyEvent h (hinputs input List.mem_cons_self)) fun other hother =>
      hinputs other (List.mem_cons_of_mem _ hother)

theorem recordAll_eq : inputs.foldl record s = inputs.foldl applyEvent s := by
  induction inputs generalizing s with
  | nil => rfl
  | cons input rest ih =>
    have hinput := hinputs input List.mem_cons_self
    rw [List.foldl_cons, List.foldl_cons, record_eq h hinput]
    exact ih (inv_applyEvent h hinput) fun other hother => hinputs other (List.mem_cons_of_mem _ hother)

end

end

/-! ## Answers -/

/-- Every event is applied once, and one call answered so: it is no duplicate. -/
structure Once (s : State) : Prop where
  count : ∀ key, s.answers.count ⟨key, false⟩ = if isApplied s.occurrences key then 1 else 0
  answered : ∀ answer ∈ s.answers, isApplied s.occurrences answer.key = true

section
variable {s : State} {input : RecordOccurrenceInput}

theorem isApplied_insertOccurrence (rows : List Occurrence) (input : RecordOccurrenceInput) (key : Key) :
    isApplied (insertOccurrence rows input) key = isApplied rows key := by
  rw [insertOccurrence]
  split
  · rfl
  · simp [isApplied, rowOf]

theorem stored_insertOccurrence (rows : List Occurrence) (input : RecordOccurrenceInput) :
    stored (insertOccurrence rows input) input.key = true := by
  rw [insertOccurrence]
  split
  · assumption
  · simp [stored, rowOf, Occurrence.key, RecordOccurrenceInput.key]

/-- Settling an event that is stored applies it and no other. -/
theorem isApplied_settle {key : Key} (hstored : stored rows key = true) (kind : Option TransitionKind) (other : Key) :
    isApplied (settle key kind rows) other = (decide (other = key) || isApplied rows other) := by
  rw [Bool.eq_iff_iff, isApplied_iff, Bool.or_eq_true, decide_eq_true_eq, isApplied_iff]
  constructor
  · rintro ⟨row, hrow, hkey, happlied⟩
    obtain ⟨before, hbefore, ⟨hwaiting, rfl⟩ | ⟨_, rfl⟩⟩ := mem_settle hrow
    · exact .inl (hkey.symm.trans ((isWaiting_iff).mp hwaiting).1)
    · exact .inr ⟨_, hbefore, hkey, happlied⟩
  · rintro (rfl | ⟨row, hrow, hkey, happlied⟩)
    · obtain ⟨row, hrow, hkey⟩ := List.mem_map.mp ((stored_iff).mp hstored)
      refine ⟨_, List.mem_map_of_mem hrow, ?_⟩
      cases hwaiting : isWaiting other row with
      | true => exact ⟨hkey, rfl⟩
      | false =>
        simp only [isWaiting, hkey, decide_true, Bool.true_and, Bool.not_eq_false'] at hwaiting
        exact ⟨hkey, hwaiting⟩
    · refine ⟨_, List.mem_map_of_mem hrow, ?_⟩
      have hwaiting : isWaiting key row = false := by simp [isWaiting, happlied]
      rw [hwaiting]
      exact ⟨hkey, happlied⟩

theorem count_append_false (answers : List Answer) (key other : Key) (duplicate : Bool) :
    (answers ++ [(⟨key, duplicate⟩ : Answer)]).count ⟨other, false⟩ =
      answers.count ⟨other, false⟩ + if other = key ∧ duplicate = false then 1 else 0 := by
  rw [List.count_append, List.count_singleton]
  congr 1
  by_cases h : other = key ∧ duplicate = false
  · simp [h]
  · rw [if_neg h, if_neg]
    intro heq
    have := eq_of_beq heq
    simp only [Answer.mk.injEq] at this
    exact h ⟨this.1.symm, this.2⟩

theorem once_applyEvent (h : Once s) : Once (applyEvent s input) := by
  rw [applyEvent]
  split
  · rename_i happlied
    refine ⟨?_, ?_⟩
    · intro key
      show (s.answers ++ [(⟨input.key, true⟩ : Answer)]).count ⟨key, false⟩ = if isApplied s.occurrences key then 1 else 0
      rw [count_append_false, h.count key]
      simp
    · intro answer hanswer
      rcases List.mem_append.mp hanswer with hold | hnew
      · exact h.answered answer hold
      · rw [List.mem_singleton.mp hnew]
        exact happlied
  · rename_i happlied
    have hsettled := fun key => isApplied_settle (stored_insertOccurrence s.occurrences input) (kindOf s input) key
    refine ⟨?_, ?_⟩
    · intro key
      show (s.answers ++ [(⟨input.key, false⟩ : Answer)]).count ⟨key, false⟩ = if isApplied (settle _ _ _) key then 1 else 0
      rw [count_append_false, h.count key, hsettled key, isApplied_insertOccurrence]
      by_cases hkey : key = input.key
      · simp [hkey, happlied]
      · simp [hkey]
    · intro answer hanswer
      show isApplied (settle _ _ _) answer.key = true
      rw [hsettled, isApplied_insertOccurrence]
      rcases List.mem_append.mp hanswer with hold | hnew
      · rw [h.answered answer hold, Bool.or_true]
      · rw [List.mem_singleton.mp hnew]
        simp

theorem once_applyAll {inputs : List RecordOccurrenceInput} (h : Once s) : Once (inputs.foldl applyEvent s) := by
  induction inputs generalizing s with
  | nil => exact h
  | cons input rest ih => exact ih (once_applyEvent h)

end

end Fabrika.Operations.Ingest
