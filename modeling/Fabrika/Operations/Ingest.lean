/-
  Fabrika.Operations.Ingest — error ingest (operations repositories/ingest.ts `record`,
  `recordGroup`, and the operator's `applyIssueMutation` in issues.ts under `mutate`).

  An event becomes one row of `occurrences` by its source and event id, and is applied to its
  issue once. `record` does this for one event in one batch of six statements. `recordGroup` does
  it for up to fifty events of one issue in one batch while the issue is open; otherwise that batch
  leaves their occurrences unapplied and `record` follows for each.

  A batch is one step: it runs whole and no other runs during it. A call that dies between two
  batches is a call whose later batches never come, and the batches of several calls come in any
  order, so a run is any list of batches. `answers` logs what the calls answered. The time an
  occurrence was applied, and the ids of occurrences, issues and activity, are read by no statement
  here and left out; the id of a mutation is read by the activity's insert and is minted from
  `nextId`.
-/

import Fabrika.Lib.Text

namespace Fabrika.Operations.Ingest

open Fabrika.Lib

/-! ## Rows -/

structure RecordOccurrenceInput where
  sourceId : String
  fingerprint : String
  eventId : String
  title : String
  culprit : Option String
  level : String
  release : Option String
  receivedAt : Int
  deriving DecidableEq

inductive TransitionKind
  | regressed
  | unsnoozed
  deriving DecidableEq

structure Occurrence where
  sourceId : String
  fingerprint : String
  eventId : String
  receivedAt : Int
  release : Option String
  transitionKind : Option TransitionKind
  applied : Bool
  deriving DecidableEq

inductive IssueStatus
  | opened
  | resolved
  | ignored
  deriving DecidableEq

structure IssueRow where
  title : String
  culprit : Option String
  level : String
  status : IssueStatus
  firstSeen : Int
  lastSeen : Int
  regressedAt : Option Int
  snoozeUntil : Option Int
  snoozeUntilCount : Option Nat
  resolvedInRelease : Option String
  revision : Nat
  lastMutationId : Option Nat
  deriving DecidableEq

inductive IssueMutation
  | status (status : IssueStatus)
  | snoozeUntil (until_ : Int)
  /-- `currentCount` is the count of applied occurrences when it was read. -/
  | snoozeCount (additional : Int) (currentCount : Nat)
  | resolveInRelease (release : Option String)
  deriving DecidableEq

inductive Entry
  | transition (kind : TransitionKind) (release : Option String) (at_ : Int)
  /-- An operator's change, and the status it was made over. -/
  | changed (mutation : IssueMutation) (prior : IssueStatus)
  deriving DecidableEq

structure Activity where
  sourceId : String
  fingerprint : String
  entry : Entry
  deriving DecidableEq

abbrev Key := String × String

structure Answer where
  key : Key
  duplicate : Bool
  deriving DecidableEq

structure State where
  occurrences : List Occurrence
  issues : String → String → Option IssueRow
  activity : List Activity
  nextId : Nat
  answers : List Answer

def init : State := ⟨[], fun _ _ => none, [], 0, []⟩

def Occurrence.key (row : Occurrence) : Key := (row.sourceId, row.eventId)

def RecordOccurrenceInput.key (input : RecordOccurrenceInput) : Key := (input.sourceId, input.eventId)

def setIssue (issues : String → String → Option IssueRow) (sourceId fingerprint : String) (issue : IssueRow) :
    String → String → Option IssueRow := fun source print =>
  if source = sourceId ∧ print = fingerprint then some issue else issues source print

/-! ## The statements of `record` -/

def rowOf (input : RecordOccurrenceInput) : Occurrence :=
  ⟨input.sourceId, input.fingerprint, input.eventId, input.receivedAt, input.release, none, false⟩

def stored (rows : List Occurrence) (key : Key) : Bool := rows.any fun row => row.key = key

/-- The rows of one event not yet applied. -/
def isWaiting (key : Key) (row : Occurrence) : Bool := row.key = key && !row.applied

/-- `on conflict (source_id, event_id) do nothing`. -/
def insertOccurrence (rows : List Occurrence) (input : RecordOccurrenceInput) : List Occurrence :=
  if stored rows input.key then rows else rows ++ [rowOf input]

def appliedCount (rows : List Occurrence) (row : Occurrence) : Nat :=
  rows.countP fun counted => counted.sourceId = row.sourceId && counted.fingerprint = row.fingerprint && counted.applied

/-- An occurrence of a resolved issue, unless it is of the release the issue is resolved in. -/
def regresses (issue : IssueRow) (row : Occurrence) : Bool :=
  issue.status = .resolved &&
    (issue.resolvedInRelease.isNone || (row.release.isSome && row.release ≠ issue.resolvedInRelease))

/-- An occurrence of an ignored issue past its time, or with the count its snooze waits for. -/
def unsnoozes (count : Nat) (issue : IssueRow) (row : Occurrence) : Bool :=
  issue.status = .ignored &&
    (issue.snoozeUntil.any (fun time => time ≤ row.receivedAt) || issue.snoozeUntilCount.any fun until_ => until_ ≤ 1 + count)

def transitionOf (count : Nat) (issue : IssueRow) (row : Occurrence) : Option TransitionKind :=
  if regresses issue row then some .regressed else if unsnoozes count issue row then some .unsnoozed else none

def setTransition (issues : String → String → Option IssueRow) (key : Key) (rows : List Occurrence) : List Occurrence :=
  rows.map fun row =>
    if isWaiting key row then
      { row with transitionKind := (issues row.sourceId row.fingerprint).bind fun issue =>
        transitionOf (appliedCount rows row) issue row }
    else row

def newIssue (input : RecordOccurrenceInput) (firstSeen lastSeen : Int) : IssueRow :=
  ⟨input.title, input.culprit, input.level, .opened, firstSeen, lastSeen, none, none, none, none, 0, none⟩

def seen (issue : IssueRow) (at_ : Int) : IssueRow := { issue with lastSeen := max issue.lastSeen at_ }

/-- The row it returns, where the event is waiting. -/
def issueUpsert (s : State) (input : RecordOccurrenceInput) (rows : List Occurrence) : Option IssueRow :=
  if rows.any (isWaiting input.key) then
    some (match s.issues input.sourceId input.fingerprint with
      | none => newIssue input input.receivedAt input.receivedAt
      | some issue => seen issue input.receivedAt)
  else none

def upserted (s : State) (input : RecordOccurrenceInput) (row : Option IssueRow) : String → String → Option IssueRow :=
  row.elim s.issues (setIssue s.issues input.sourceId input.fingerprint)

/-- The event's row waits with a transition. -/
def isTransition (key : Key) (row : Occurrence) : Bool := isWaiting key row && row.transitionKind.isSome

def reopened (issue : IssueRow) (kind : Option TransitionKind) (at_ : Int) (id : Nat) : IssueRow :=
  { issue with
    status := .opened, regressedAt := if kind = some .regressed then some at_ else issue.regressedAt,
    snoozeUntil := none, snoozeUntilCount := none, resolvedInRelease := none,
    revision := issue.revision + 1, lastMutationId := some id }

/-- The row it returns, where the event's transition reopens its issue. -/
def issueReopen (issues : String → String → Option IssueRow) (input : RecordOccurrenceInput) (rows : List Occurrence) (id : Nat) :
    Option IssueRow :=
  (issues input.sourceId input.fingerprint).bind fun issue =>
    if issue.status ≠ .opened ∧ rows.any (isTransition input.key) then
      some (reopened issue ((rows.find? fun row => row.key = input.key).bind Occurrence.transitionKind) input.receivedAt id)
    else none

/-- One entry for the event's transition, where this call's mutation is its issue's last. -/
def activityOf (issues : String → String → Option IssueRow) (input : RecordOccurrenceInput) (rows : List Occurrence) (id : Nat) :
    List Activity :=
  rows.filterMap fun row =>
    if isWaiting input.key row ∧ (issues row.sourceId row.fingerprint).any (fun issue => issue.lastMutationId = some id) then
      row.transitionKind.map fun kind => ⟨row.sourceId, row.fingerprint, .transition kind input.release row.receivedAt⟩
    else none

def markApplied (key : Key) (rows : List Occurrence) : List Occurrence :=
  rows.map fun row => if isWaiting key row then { row with applied := true } else row

/-- `record`'s batch, and its answer: the first call that finds the event waiting is no
    duplicate. -/
def record (s : State) (input : RecordOccurrenceInput) : State :=
  let rows := setTransition s.issues input.key (insertOccurrence s.occurrences input)
  let upsert := issueUpsert s input rows
  let issues := upserted s input upsert
  let reopen := issueReopen issues input rows s.nextId
  let issues := reopen.elim issues (setIssue issues input.sourceId input.fingerprint)
  { occurrences := markApplied input.key rows
    issues := issues
    activity := s.activity ++ activityOf issues input rows s.nextId
    nextId := s.nextId + 1
    answers := s.answers ++ [⟨input.key, (reopen <|> upsert).isNone⟩] }

/-! ## `recordGroup` -/

inductive GroupError
  | tooMany
  | mixed
  deriving DecidableEq

def GroupError.message : GroupError → String
  | .tooMany => "occurrence group exceeds 50 events"
  | .mixed => "occurrence group must share one source and fingerprint"

/-- The inserts of a group, and which of them returned their event id. -/
def insertAll (rows : List Occurrence) : List RecordOccurrenceInput → List Occurrence × List Bool
  | [] => (rows, [])
  | input :: rest =>
    let after := insertAll (insertOccurrence rows input) rest
    (after.1, (!stored rows input.key) :: after.2)

/-- The rows of a group's events not yet applied. -/
def isDue (first : RecordOccurrenceInput) (inputs : List RecordOccurrenceInput) (row : Occurrence) : Bool :=
  row.sourceId = first.sourceId && row.fingerprint = first.fingerprint &&
    (inputs.map RecordOccurrenceInput.eventId).contains row.eventId && !row.applied

/-- The issue after the group's upsert, which returns a row only where it makes the issue or finds
    it open. -/
def groupIssueUpsert (s : State) (first : RecordOccurrenceInput) (due : List Occurrence) : Option IssueRow :=
  match (due.map Occurrence.receivedAt).min?, (due.map Occurrence.receivedAt).max? with
  | some earliest, some latest =>
    match s.issues first.sourceId first.fingerprint with
    | none => some (newIssue first earliest latest)
    | some issue => if issue.status = .opened then some (seen issue latest) else none
  | _, _ => none

/-- A group's batch, and whether it applied the group. -/
def groupBatch (s : State) (first : RecordOccurrenceInput) (inputs : List RecordOccurrenceInput) : State × Bool :=
  let inserted := insertAll s.occurrences inputs
  let upsert := groupIssueUpsert s first (inserted.1.filter (isDue first inputs))
  let issues := upsert.elim s.issues (setIssue s.issues first.sourceId first.fingerprint)
  let isOpen := (issues first.sourceId first.fingerprint).any fun issue => issue.status = .opened
  ({ s with
      occurrences := inserted.1.map fun row => if isDue first inputs row && isOpen then { row with applied := true } else row
      issues := issues
      answers := if upsert.isSome then s.answers ++ (inputs.zip inserted.2).map fun one => ⟨one.1.key, !one.2⟩ else s.answers },
    upsert.isSome)

/-- A group's first event, checked to share its issue with the others; none of an empty group. -/
def checkGroup (inputs : List RecordOccurrenceInput) : Except GroupError (Option RecordOccurrenceInput) :=
  match inputs with
  | [] => pure none
  | first :: _ =>
    if inputs.length > 50 then throw .tooMany
    else if inputs.any fun input => input.sourceId ≠ first.sourceId || input.fingerprint ≠ first.fingerprint then throw .mixed
    else pure (some first)

/-- A group's batch alone: what is left by a call that goes no further. -/
def group (s : State) (inputs : List RecordOccurrenceInput) : State :=
  match checkGroup inputs with
  | .ok (some first) => (groupBatch s first inputs).1
  | _ => s

/-- The whole call, with nothing between its batches. -/
def recordGroup (s : State) (inputs : List RecordOccurrenceInput) : Except GroupError State := do
  match ← checkGroup inputs with
  | none => return s
  | some first =>
    let done := groupBatch s first inputs
    return if done.2 then done.1 else inputs.foldl record done.1

/-! ## Operators -/

inductive MutationError
  | snoozeTime
  | snoozeCount
  deriving DecidableEq

def MutationError.message : MutationError → String
  | .snoozeTime => "Snooze time must be a positive integer."
  | .snoozeCount => "Snooze count must be between 1 and 100000."

/-- `mutation.release?.trim() || null`. -/
def releaseOf (release : Option String) : Option String :=
  (release.map Text.trim).filter fun text => text ≠ ""

/-- The changed issue, and whether the change is an activity. -/
def applyIssueMutation (prior : IssueRow) : IssueMutation → Except MutationError (IssueRow × Bool)
  | .status status => pure ({ prior with status }, status ≠ prior.status)
  | .snoozeUntil time =>
    if time ≤ 0 then throw .snoozeTime
    else pure ({ prior with status := .ignored, snoozeUntil := some time, snoozeUntilCount := none, resolvedInRelease := none },
      true)
  | .snoozeCount additional currentCount =>
    if additional ≤ 0 ∨ 100000 < additional then throw .snoozeCount
    else
      pure ({ prior with
        status := .ignored, snoozeUntil := none, snoozeUntilCount := some (currentCount + additional.toNat)
        resolvedInRelease := none }, true)
  | .resolveInRelease release =>
    pure ({ prior with
      status := .resolved, snoozeUntil := none, snoozeUntilCount := none, resolvedInRelease := releaseOf release }, true)

/-- `mutate`'s batch. It is guarded by the revision its read found, so the issue it changes is the
    one it read, but for what no revision counts: when it was last seen. -/
def mutate (s : State) (sourceId fingerprint : String) (mutation : IssueMutation) : State :=
  match s.issues sourceId fingerprint with
  | none => s
  | some prior =>
    match applyIssueMutation prior mutation with
    | .error _ => s
    | .ok (issue, active) =>
      { s with
        issues :=
        setIssue s.issues sourceId fingerprint { issue with revision := prior.revision + 1, lastMutationId := some s.nextId }
        activity := if active then s.activity ++ [⟨sourceId, fingerprint, .changed mutation prior.status⟩] else s.activity
        nextId := s.nextId + 1 }

/-! ## Runs -/

inductive Step
  | record (input : RecordOccurrenceInput)
  | group (inputs : List RecordOccurrenceInput)
  | mutate (sourceId fingerprint : String) (mutation : IssueMutation)

def step (s : State) : Step → State
  | .record input => record s input
  | .group inputs => group s inputs
  | .mutate sourceId fingerprint mutation => mutate s sourceId fingerprint mutation

def after (s : State) (steps : List Step) : State := steps.foldl step s

end Fabrika.Operations.Ingest
