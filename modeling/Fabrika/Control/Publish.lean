/-
  Fabrika.Control.Publish — approval/publish.ts over db/registry.ts: a run's candidate is compared
  with the environment's active snapshot, parked until a human approves a widening, and published
  by a compare-and-swap.

  A publication reads and writes the database at separate times, so it is a `Publisher` that takes
  one step at a time, and anything else may happen between two of its steps: statements of other
  holders, registry writes, protection changes, deletions, re-creations and other publications.
  Between its steps it may also stop (`abandon`): a check refused the candidate, the lease is
  lost, a service failed or the process died.

  JSON and SHA-256 are `Formats`. A holder of a lease is a fresh UUID, so it is acquired at most
  once (`acquired`); a holder whose publication is under way writes nothing else meanwhile.
  `published` is the history of the publications that succeeded.
-/

import Fabrika.Control.Runs
import Fabrika.Control.Diff

namespace Fabrika.Control.Publish

open Fabrika.Lib Fabrika.Control.Runs

/-! ## Registry writes -/

/-- What an `app_envs` row starts as: the flag and the counters a deleted environment left. -/
def newAppEnv (db : Database) (c : Coordinate) : AppEnvRow :=
  match db.protections c with
  | some kept => ⟨none, none, kept.generation, kept.protected, kept.protectionRevision⟩
  | none => ⟨none, none, 0, defaultProtected c.2, 0⟩

def setAppEnv (db : Database) (c : Coordinate) (row : Option AppEnvRow) : Database :=
  { db with appEnvs := Function.update db.appEnvs c row }

inductive AppEnvExpectation
  | absent
  | generation (generation : Nat)
  deriving DecidableEq

/-- `writeAppEnv`: a write that finds the environment changed fails the whole batch. -/
def upsertAppEnv (db : Database) (c : Coordinate) (expected : Option AppEnvExpectation) : Database :=
  let locked := ensureProtection db c
  match expected, locked.appEnvs c with
  | none, none => setAppEnv locked c (some (newAppEnv locked c))
  | none, some row => setAppEnv locked c (some { row with generation := row.generation + 1 })
  | some .absent, none => setAppEnv locked c (some (newAppEnv locked c))
  | some .absent, some _ => db
  | some (.generation _), none => db
  | some (.generation generation), some row =>
    if row.generation = generation then setAppEnv locked c (some { row with generation := row.generation + 1 }) else db

def setAppEnvProtected (db : Database) (c : Coordinate) (value : Bool) (fence : LeaseFence) : Database :=
  let locked := ensureProtection db c
  match locked.appEnvs c with
  | none => locked
  | some row =>
    if holdsKey locked (runLeaseKey c) fence && !(locked.runs.any fun run => run.coordinate == c && run.status == .running) then
      setAppEnv locked c
        (some { row with
          «protected» := value, protectionRevision := row.protectionRevision + 1, generation := row.generation + 1 })
    else locked

/-- `appEnvTombstoneSql`: what a deleted environment leaves. -/
def tombstone (row : AppEnvRow) : ProtectionRow := ⟨row.protected, row.generation + 1, row.protectionRevision⟩

def deleteAppEnv (db : Database) (c : Coordinate) (expected : Option Nat) : Database :=
  let locked := ensureProtection db c
  match locked.appEnvs c with
  | none => locked
  | some row =>
    if expected.all (row.generation == ·) then
      setAppEnv { locked with protections := Function.update locked.protections c (some (tombstone row)) } c none
    else locked

/-- `deleteApp`: the tombstones of the app's environments are written whether or not it is
    deleted; its deletion takes its environments and runs with it. -/
def deleteApp (db : Database) (app : String) (deleted : Bool) : Database :=
  let kept : Database := { db with
    protections := fun c => if c.1 = app then ((db.appEnvs c).map tombstone <|> db.protections c) else db.protections c }
  if deleted then
    { kept with
      appEnvs := fun c => if c.1 = app then none else db.appEnvs c
      runs := db.runs.filter fun run => run.appId != app }
  else kept

/-- The app has exactly the environments the caller read, at their generations. -/
def UnchangedApp (db : Database) (app : String) (expected : List (String × Nat)) : Prop :=
  (∃ envs : List String, envs.Nodup ∧ envs.length = expected.length ∧ ∀ env, env ∈ envs ↔ (db.appEnvs (app, env)).isSome) ∧
    ∀ env row, db.appEnvs (app, env) = some row → (env, row.generation) ∈ expected

/-! ## Snapshots -/

structure Snapshot extends AccessSnapshot where
  /-- The artifact an older release's reader produced, which the digest is of. -/
  older : Option String := none
  checker : String := ""
  framework : Option String := none

/-- `EMPTY_SNAPSHOT`: what an environment without a publication compares with. -/
def emptySnapshot : Snapshot := { contract := none }

structure ActiveSnapshot where
  runId : Option String
  generation : Nat
  snapshot : Snapshot

inductive AccessOutcome
  | none
  | noWidening
  | widening
  deriving DecidableEq

structure StoredClassification where
  outcome : AccessOutcome
  changes : List AccessChange
  candidateDigest : String
  baselineDigest : String
  baselineRunId : Option String
  «protected» : Bool

structure StoredApproval where
  principalId : String
  label : String
  approvedAt : Int
  candidateDigest : String
  baselineDigest : String
  deriving DecidableEq

/-- The stored forms, and the digest of the access a snapshot grants; a reader that throws answers
    `none`. -/
structure Formats where
  parseSnapshot : String → Option Snapshot
  serializeSnapshot : Snapshot → String
  snapshotDigest : Snapshot → String
  parseApproval : String → Option StoredApproval
  serializeClassification : StoredClassification → String

variable (formats : Formats)

/-- `serializePublished`: without the file adoptions. -/
def serializePublished (snapshot : Snapshot) : String := formats.serializeSnapshot { snapshot with fileAdoptions := [] }

/-- The environment's last publication, or the empty snapshot; one without a contract approves
    nothing. Half a publication throws. -/
def approvedSnapshot (row : AppEnvRow) : Option ActiveSnapshot :=
  match row.publishedRunId, row.publishedSnapshotJson with
  | none, none => some ⟨none, row.generation, emptySnapshot⟩
  | some runId, some raw => do
    let snapshot ← formats.parseSnapshot raw
    match snapshot.contract with
    | none => some ⟨none, row.generation, emptySnapshot⟩
    | some _ => some ⟨some runId, row.generation, snapshot⟩
  | _, _ => none

def outcomeOf (changes : List AccessChange) : AccessOutcome :=
  if changes.isEmpty then .none else if changes.any (fun change => change.effect == .widens) then .widening else .noWidening

def classify (active : ActiveSnapshot) (candidate : Snapshot) (row : AppEnvRow) : Option StoredClassification := do
  let changes ← (classifyAccess active.snapshot.toAccessSnapshot candidate.toAccessSnapshot).toOption
  return { outcome := outcomeOf changes, changes
           candidateDigest := formats.snapshotDigest candidate
           baselineDigest := formats.snapshotDigest active.snapshot
           baselineRunId := active.runId
           «protected» := row.protected }

/-- The approval on the run counts only for the candidate and baseline it was given for. -/
def approves (run : RunRow) (classification : StoredClassification) : Option Bool :=
  match run.approvalJson with
  | none => some false
  | some raw => do
    let approval ← formats.parseApproval raw
    return approval.candidateDigest == classification.candidateDigest && approval.baselineDigest == classification.baselineDigest

/-! ## A publication under way -/

/-- A dev bootstrap's own workspace publication. -/
structure WorkspaceBaseline where
  runId : String
  snapshot : Snapshot

/-- Where the body of `publishRunSnapshot` waits. -/
inductive Stage
  /-- Before the candidate is known. -/
  | candidate
  /-- At the top of the loop. -/
  | boundary (candidate : Snapshot)
  | environment (candidate : Snapshot) (run : RunRow)
  | classified (candidate : Snapshot) (run : RunRow) (row : AppEnvRow) (classification : StoredClassification)
  | recorded (candidate : Snapshot) (run : RunRow) (row : AppEnvRow)

structure Publisher where
  /-- `input.run`. -/
  run : RunRow
  workspaceBaseline : Option WorkspaceBaseline
  attempt : Nat
  stage : Stage

def maxPublicationAttempts : Nat := 3

/-- A publication that succeeded: the run's row and the environment's at that instant. -/
structure Publication where
  run : RunRow
  row : AppEnvRow
  candidate : Snapshot
  workspaceBaseline : Option WorkspaceBaseline

structure System where
  db : Database
  /-- The key each holder took, or tried to. -/
  acquired : String → Option String
  /-- By holder. -/
  publishers : String → Option Publisher
  published : List Publication

def System.setPublisher (s : System) (holder : String) (publisher : Option Publisher) : System :=
  { s with publishers := Function.update s.publishers holder publisher }

/-- The baseline a candidate is compared with. -/
def activeOf (workspaceBaseline : Option WorkspaceBaseline) (published : ActiveSnapshot) : ActiveSnapshot :=
  match workspaceBaseline with
  | none => published
  | some baseline => ⟨some baseline.runId, published.generation, baseline.snapshot⟩

/-- The candidate is the one the run stores, or the one read from its commit, stored before
    anything compares it; one without a contract is refused. -/
def readCandidate (s : System) (holder : String) (publisher : Publisher) (read : Snapshot) (nowMs : Int) : System :=
  let compare (s : System) (candidate : Snapshot) : System :=
    s.setPublisher holder (candidate.contract.map fun _ => { publisher with stage := .boundary candidate })
  match publisher.run.snapshotJson with
  | some raw =>
    match formats.parseSnapshot raw with
    | some candidate => compare s candidate
    | none => s.setPublisher holder none
  | none =>
    let stored := recordRunSnapshot s.db publisher.run.id (formats.serializeSnapshot read) ⟨holder, nowMs⟩
    if stored.2 then compare { s with db := stored.1 } read else { s with db := stored.1 }.setPublisher holder none

/-- `boundary`: the active row, unless the run is settled or its cancellation is requested. -/
def readBoundary (s : System) (holder : String) (publisher : Publisher) (candidate : Snapshot) : System :=
  match s.db.runs.find? fun run => run.id == publisher.run.id with
  | none => s.setPublisher holder none
  | some run =>
    if (run.status = .pending ∨ run.status = .running) ∧ run.cancelRequestedAt = none then
      s.setPublisher holder (some { publisher with stage := .environment candidate run })
    else s.setPublisher holder none

/-- The environment is read and the candidate compared with its active snapshot. -/
def readEnvironment (s : System) (holder : String) (publisher : Publisher) (candidate : Snapshot) (run : RunRow) : System :=
  match s.db.appEnvs run.coordinate with
  | none => s.setPublisher holder none
  | some row =>
    let classification := do
      let published ← approvedSnapshot formats row
      classify formats (activeOf publisher.workspaceBaseline published) candidate row
    match classification with
    | some classification => s.setPublisher holder (some { publisher with stage := .classified candidate run row classification })
    | none => s.setPublisher holder none

/-- A widening of a protected environment that the run's approval does not name parks the run;
    anything else is recorded and goes on to the compare-and-swap. -/
def writeClassification (s : System) (holder : String) (publisher : Publisher) (candidate : Snapshot) (run : RunRow)
    (row : AppEnvRow)
    (classification : StoredClassification) (nowMs : Int) : System :=
  let serialized := formats.serializeClassification classification
  let record : System :=
    let recorded := recordRunClassification s.db run.id serialized ⟨holder, nowMs⟩
    { s with db := recorded.1 }.setPublisher holder
      (if recorded.2 then some { publisher with stage := .recorded candidate run row } else none)
  if classification.outcome = .widening ∧ classification.protected = true then
    match approves formats run classification with
    | none => s.setPublisher holder none
    | some true => record
    | some false => { s with db := (parkRunForApproval s.db run.id serialized ⟨holder, nowMs⟩).1 }.setPublisher holder none
  else record

/-- The compare-and-swap; a lost one classifies again, three times at most. -/
def swap (s : System) (holder : String) (publisher : Publisher) (candidate : Snapshot) (run : RunRow) (row : AppEnvRow)
    (nowMs : Int) :
    System :=
  let swapped :=
    publishRunSnapshot s.db run.id ⟨row.generation, row.protectionRevision⟩ (serializePublished formats candidate) ⟨holder, nowMs⟩
  if swapped.2 then
    let publications := ((s.db.runs.find? fun now => now.id == run.id).bind fun now =>
      (s.db.appEnvs now.coordinate).map fun active => ⟨now, active, candidate, publisher.workspaceBaseline⟩).toList
    { s with db := swapped.1, published := s.published ++ publications }.setPublisher holder none
  else
    { s with db := swapped.1 }.setPublisher holder
      (if publisher.attempt + 1 < maxPublicationAttempts then
        some { publisher with attempt := publisher.attempt + 1, stage := .boundary candidate }
      else none)

/-- One step of the publication `holder` has under way; `read` is what the commit source answers. -/
def advance (s : System) (holder : String) (read : Snapshot) (nowMs : Int) : System :=
  match s.publishers holder with
  | none => s
  | some publisher =>
    match publisher.stage with
    | .candidate => readCandidate formats s holder publisher read nowMs
    | .boundary candidate => readBoundary s holder publisher candidate
    | .environment candidate run => readEnvironment formats s holder publisher candidate run
    | .classified candidate run row classification =>
      writeClassification formats s holder publisher candidate run row classification nowMs
    | .recorded candidate run row => swap formats s holder publisher candidate run row nowMs

/-! ## Any interleaving -/

inductive Event
  | statement (statement : Statement)
  | acquire (key holder : String) (nowMs ttlMs : Int)
  | renew (key holder : String) (nowMs ttlMs : Int)
  | release (key holder : String)
  | upsertAppEnv (c : Coordinate) (expected : Option AppEnvExpectation)
  | setAppEnvProtected (c : Coordinate) (value : Bool) (fence : LeaseFence)
  | deleteAppEnv (c : Coordinate) (expected : Option Nat)
  | deleteApp (app : String) (expected : Option (List (String × Nat))) (deleted : Bool)
  | begin (holder : String) (run : RunRow) (workspaceBaseline : Option WorkspaceBaseline)
  | advance (holder : String) (read : Snapshot) (nowMs : Int)
  | abandon (holder : String)

def next (lower : String → String) (s : System) : Event → System
  | .statement statement => { s with db := (execute lower s.db statement).1 }
  | .acquire key holder nowMs ttlMs =>
    { s with db := (Runs.acquire s.db key holder nowMs ttlMs).1, acquired := Function.update s.acquired holder (some key) }
  | .renew key holder nowMs ttlMs => { s with db := (Runs.renew s.db key holder nowMs ttlMs).1 }
  | .release key holder => { s with db := Runs.release s.db key holder }
  | .upsertAppEnv c expected => { s with db := upsertAppEnv s.db c expected }
  | .setAppEnvProtected c value fence => { s with db := setAppEnvProtected s.db c value fence }
  | .deleteAppEnv c expected => { s with db := deleteAppEnv s.db c expected }
  | .deleteApp app _ deleted => { s with db := deleteApp s.db app deleted }
  | .begin holder run workspaceBaseline => s.setPublisher holder (some ⟨run, workspaceBaseline, 0, .candidate⟩)
  | .advance holder read nowMs => advance formats s holder read nowMs
  | .abandon holder => s.setPublisher holder none

/-- What the callers keep to: only a publisher publishes, a holder is fresh, it takes its run's
    own lease before it publishes, and an app is deleted only as the caller read it. -/
def Allowed (s : System) : Event → Prop
  | .statement statement =>
    (∀ id expected json fence, statement ≠ .publishRunSnapshot id expected json fence) ∧
      ∀ id fence, statement.fenced = some (id, fence) → s.publishers fence.holder = none
  | .acquire _ holder _ _ => s.acquired holder = none
  | .deleteApp app (some expected) true => UnchangedApp s.db app expected
  | .begin holder run _ => s.publishers holder = none ∧ s.acquired holder = some (runLeaseKey run.coordinate)
  | _ => True

def Step (lower : String → String) (s : System) (event : Event) (s' : System) : Prop :=
  Allowed s event ∧ s' = next formats lower s event

def initial : System := ⟨emptyDatabase, fun _ => none, fun _ => none, []⟩

end Fabrika.Control.Publish
