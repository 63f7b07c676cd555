/-
  Fabrika.Control.Runs — db/runs.ts and deploy-locks-sql.ts: the statements of the run table and
  of the `<app>:<env>` lease every lifecycle write of a run is fenced on.

  The database is the rows of `runs`, `deploy_locks`, `app_envs` and `app_env_protection` that
  these statements read. A batch is atomic, so each statement is a function of the database; the
  statements of a batch that only lock a row change nothing here. A statement whose `WHERE`
  matches no row leaves the table as it is and answers `false`. Texts are compared by their
  characters, as `TEXT` keys are; a `NULL` is equal to nothing.
-/

import Mathlib.Logic.Function.Basic
import Fabrika.Lib.Run

namespace Fabrika.Control.Runs

open Fabrika.Lib

/-! ## Rows -/

inductive RunTrigger
  | webhook
  | manual
  | poll
  deriving DecidableEq

inductive RunStatus
  | pending
  | running
  | awaitingApproval
  | succeeded
  | failed
  deriving DecidableEq

def RunStatus.terminal : RunStatus → Bool
  | .succeeded => true
  | .failed => true
  | _ => false

/-- The two states a run finishes in. -/
inductive RunOutcome
  | succeeded
  | failed
  deriving DecidableEq

def RunOutcome.status : RunOutcome → RunStatus
  | .succeeded => .succeeded
  | .failed => .failed

structure RunRow where
  id : String
  appId : String
  env : String
  ref : String
  commitSha : Option String
  trigger : RunTrigger
  status : RunStatus
  exitCode : Option Int
  logKey : Option String
  createdAt : Int
  startedAt : Option Int
  finishedAt : Option Int
  externalRunId : Option String
  providerStateJson : Option String
  cancelRequestedAt : Option Int
  actor : Option String
  snapshotJson : Option String
  classificationJson : Option String
  approvalJson : Option String
  supersededBy : Option String
  migrationBarrier : Option Int
  lane : Option String
  deriving DecidableEq

structure Lock where
  holder : String
  expiresAt : Int
  deriving DecidableEq

/-- What these statements read and write of an `app_envs` row. -/
structure AppEnvRow where
  publishedRunId : Option String
  publishedSnapshotJson : Option String
  generation : Nat
  «protected» : Bool
  protectionRevision : Nat
  deriving DecidableEq

/-- An `app_env_protection` row, which outlives its environment. -/
structure ProtectionRow where
  «protected» : Bool
  generation : Nat
  protectionRevision : Nat
  deriving DecidableEq

/-- `<app>` and `<env>`: the key of an environment. -/
abbrev Coordinate := String × String

structure Database where
  runs : List RunRow
  locks : String → Option Lock
  appEnvs : Coordinate → Option AppEnvRow
  protections : Coordinate → Option ProtectionRow

def RunRow.coordinate (run : RunRow) : Coordinate := (run.appId, run.env)

/-- `app_id || ':' || env`. -/
def runLeaseKey (c : Coordinate) : String := c.1 ++ ":" ++ c.2

structure LeaseFence where
  holder : String
  nowMs : Int
  deriving DecidableEq

/-! ## The lease -/

/-- `EXISTS (SELECT 1 FROM deploy_locks WHERE lock_key = ? AND holder = ? AND expires_at > ?)`. -/
def holdsKey (db : Database) (key : String) (fence : LeaseFence) : Bool :=
  match db.locks key with
  | some lock => lock.holder == fence.holder && fence.nowMs < lock.expiresAt
  | none => false

/-- `SqlDeployLocks.acquire`: one conditional upsert. -/
def acquire (db : Database) (key holder : String) (nowMs ttlMs : Int) : Database × Bool :=
  match db.locks key with
  | none => ({ db with locks := Function.update db.locks key (some ⟨holder, nowMs + ttlMs⟩) }, true)
  | some lock =>
    if lock.expiresAt ≤ nowMs then ({ db with locks := Function.update db.locks key (some ⟨holder, nowMs + ttlMs⟩) }, true)
    else (db, false)

def renew (db : Database) (key holder : String) (nowMs ttlMs : Int) : Database × Bool :=
  match db.locks key with
  | some lock =>
    if lock.holder = holder ∧ nowMs < lock.expiresAt then
      ({ db with locks := Function.update db.locks key (some { lock with expiresAt := nowMs + ttlMs }) }, true)
    else (db, false)
  | none => (db, false)

def release (db : Database) (key holder : String) : Database :=
  match db.locks key with
  | some lock => if lock.holder = holder then { db with locks := Function.update db.locks key none } else db
  | none => db

/-! ## Fenced writes of a run -/

/-- `UPDATE runs SET … WHERE id = ? AND …`, and whether a row matched. -/
def updateRun (db : Database) (id : String) (guard : RunRow → Bool) (set : RunRow → RunRow) : Database × Bool :=
  ({ db with runs := db.runs.map fun run => if run.id == id && guard run then set run else run },
    db.runs.any fun run => run.id == id && guard run)

/-- `mutateRun`: the update, while the fence holds the run's own lease. -/
def mutateRun (db : Database) (id : String) (guard : RunRow → Bool) (set : RunRow → RunRow) (fence : LeaseFence) :
    Database × Bool :=
  updateRun db id (fun run => guard run && holdsKey db (runLeaseKey run.coordinate) fence) set

structure CreateRun where
  id : String
  appId : String
  env : String
  ref : String
  commitSha : Option String
  trigger : RunTrigger
  actor : String
  lane : Option String
  deriving DecidableEq

/-- The insert fails on the key where the id is taken. -/
def createRun (db : Database) (input : CreateRun) (now : Int) : Database × Bool :=
  if db.runs.any fun run => run.id == input.id then (db, false)
  else
    ({ db with
        runs := db.runs ++ [⟨input.id, input.appId, input.env, input.ref, input.commitSha, input.trigger, .pending,
          none, none, now, none, none, none, none, none, some input.actor, none, none, none, none, none, input.lane⟩] }, true)

/-- The provider's state replaces the stored one only where it is given. -/
def recordInitialRunExternalId (db : Database) (id externalRunId : String) (providerState : Option String) (fence : LeaseFence) :
    Database × Bool :=
  mutateRun db id (fun run => run.status == .running && run.externalRunId.isNone)
    (fun run =>
      { run with externalRunId := some externalRunId, providerStateJson := providerState <|> run.providerStateJson }) fence

def checkpointRunProviderState (db : Database) (id providerState : String) (fence : LeaseFence) : Database × Bool :=
  mutateRun db id (fun run => run.status == .running && run.cancelRequestedAt.isNone && run.externalRunId.isSome)
    (fun run => { run with providerStateJson := some providerState }) fence

/-- A newer run of the same environment and lane that succeeded. -/
def supersedes (newer run : RunRow) : Bool :=
  newer.coordinate == run.coordinate && newer.lane == run.lane && run.id < newer.id && newer.status == .succeeded

def markRunStarted (db : Database) (id logKey : String) (now : Int) (fence : LeaseFence) : Database × Bool :=
  mutateRun db id
    (fun run => run.status == .pending && run.cancelRequestedAt.isNone
      && !(db.runs.any fun active => active.coordinate == run.coordinate && active.status == .running && active.id != run.id)
      && !(db.runs.any fun newer => supersedes newer run))
    (fun run => { run with status := .running, startedAt := some now, logKey := some logKey }) fence

def markRunSuperseded (db : Database) (id supersededBy : String) (now : Int) (fence : LeaseFence) : Database × Bool :=
  mutateRun db id
    (fun run => run.status == .pending && run.cancelRequestedAt.isNone
      && db.runs.any fun newer => newer.id == supersededBy && supersedes newer run)
    (fun run => { run with status := .failed, finishedAt := some now, supersededBy := some supersededBy }) fence

/-- `lower` is the database's `LOWER`. -/
def setRunCommit (lower : String → String) (db : Database) (id commitSha : String) (fence : LeaseFence) : Database × Bool :=
  mutateRun db id
    (fun run => run.status == .running && run.cancelRequestedAt.isNone
      && (run.commitSha.isNone || run.commitSha.map lower == some commitSha))
    (fun run => { run with commitSha := some commitSha }) fence

/-- The statements that record one thing of a run that is running and not being cancelled. -/
def recordRunning (db : Database) (id : String) (set : RunRow → RunRow) (fence : LeaseFence) : Database × Bool :=
  mutateRun db id (fun run => run.status == .running && run.cancelRequestedAt.isNone) set fence

def recordRunMigrationBarrier (db : Database) (id : String) (installs : Bool) (fence : LeaseFence) : Database × Bool :=
  recordRunning db id (fun run => { run with migrationBarrier := some (if installs then 1 else 0) }) fence

def recordRunSnapshot (db : Database) (id snapshotJson : String) (fence : LeaseFence) : Database × Bool :=
  recordRunning db id (fun run => { run with snapshotJson := some snapshotJson }) fence

def recordRunClassification (db : Database) (id classificationJson : String) (fence : LeaseFence) : Database × Bool :=
  recordRunning db id (fun run => { run with classificationJson := some classificationJson }) fence

def parkRunForApproval (db : Database) (id classificationJson : String) (fence : LeaseFence) : Database × Bool :=
  recordRunning db id (fun run => { run with status := .awaitingApproval, classificationJson := some classificationJson }) fence

/-- A decision on a parked run that still shows the classification the human read. -/
def decideParked (db : Database) (id classificationJson : String) (set : RunRow → RunRow) (fence : LeaseFence) :
    Database × Bool :=
  mutateRun db id
    (fun run => run.status == .awaitingApproval && run.cancelRequestedAt.isNone
      && run.classificationJson == some classificationJson) set fence

def approveParkedRun (db : Database) (id classificationJson approvalJson : String) (fence : LeaseFence) : Database × Bool :=
  decideParked db id classificationJson (fun run => { run with status := .pending, approvalJson := some approvalJson }) fence

def rejectParkedRun (db : Database) (id classificationJson : String) (now : Int) (fence : LeaseFence) : Database × Bool :=
  decideParked db id classificationJson
    (fun run => { run with status := .failed, finishedAt := some now, approvalJson := none }) fence

/-- The one unfenced update of a run. -/
def requestRunCancellation (db : Database) (id : String) (now : Int) : Database × Bool :=
  updateRun db id (fun run => !run.status.terminal)
    (fun run => { run with cancelRequestedAt := run.cancelRequestedAt <|> some now })

def markRunFinished (db : Database) (id : String) (outcome : RunOutcome) (exitCode : Option Int) (now : Int)
    (fence : LeaseFence) :
    Database × Bool :=
  mutateRun db id (fun run => (run.status == .pending || run.status == .running) && run.cancelRequestedAt.isNone)
    (fun run => { run with status := outcome.status, exitCode, finishedAt := some now }) fence

def markRunCancellationFinished (db : Database) (id : String) (outcome : RunOutcome) (now : Int) (fence : LeaseFence) :
    Database × Bool :=
  mutateRun db id (fun run => !run.status.terminal && run.cancelRequestedAt.isSome)
    (fun run => { run with
      status := outcome.status, exitCode := none, finishedAt := some now
      approvalJson := if run.status = .awaitingApproval then none else run.approvalJson }) fence

/-! ## Publication -/

/-- `defaultProtected`: a new environment is protected only as `prod`. -/
def defaultProtected (env : String) : Bool := env == "prod"

/-- `coordinateLockStatements`: the protection row is there from now on. -/
def ensureProtection (db : Database) (c : Coordinate) : Database :=
  match db.protections c with
  | some _ => db
  | none => { db with protections := Function.update db.protections c (some ⟨defaultProtected c.2, 0, 0⟩) }

structure Expected where
  generation : Nat
  protectionRevision : Nat
  deriving DecidableEq

/-- The conditions of the compare-and-swap on the environment of the run. -/
def publishes (db : Database) (run : RunRow) (row : AppEnvRow) (expected : Expected) (fence : LeaseFence) : Bool :=
  row.generation == expected.generation && row.protectionRevision == expected.protectionRevision
    && run.status == .running && run.cancelRequestedAt.isNone && run.snapshotJson.isSome
    && holdsKey db (runLeaseKey run.coordinate) fence

def publishRunSnapshot (db : Database) (id : String) (expected : Expected) (snapshotJson : String) (fence : LeaseFence) :
    Database × Bool :=
  match db.runs.find? fun run => run.id == id with
  | none => (db, false)
  | some run =>
    let db := ensureProtection db run.coordinate
    match db.appEnvs run.coordinate with
    | none => (db, false)
    | some row =>
      if publishes db run row expected fence then
        ({ db with
            appEnvs := Function.update db.appEnvs run.coordinate
              (some { row with publishedRunId := some id, publishedSnapshotJson := some snapshotJson,
                               generation := row.generation + 1 }) }, true)
      else (db, false)

/-! ## Any sequence of statements -/

/-- The writes of `RunRepository`. -/
inductive Statement
  | createRun (input : CreateRun) (now : Int)
  | recordInitialRunExternalId (id externalRunId : String) (providerState : Option String) (fence : LeaseFence)
  | checkpointRunProviderState (id providerState : String) (fence : LeaseFence)
  | markRunStarted (id logKey : String) (now : Int) (fence : LeaseFence)
  | markRunSuperseded (id supersededBy : String) (now : Int) (fence : LeaseFence)
  | setRunCommit (id commitSha : String) (fence : LeaseFence)
  | recordRunMigrationBarrier (id : String) (installs : Bool) (fence : LeaseFence)
  | recordRunSnapshot (id snapshotJson : String) (fence : LeaseFence)
  | recordRunClassification (id classificationJson : String) (fence : LeaseFence)
  | parkRunForApproval (id classificationJson : String) (fence : LeaseFence)
  | approveParkedRun (id classificationJson approvalJson : String) (fence : LeaseFence)
  | rejectParkedRun (id classificationJson : String) (now : Int) (fence : LeaseFence)
  | publishRunSnapshot (id : String) (expected : Expected) (snapshotJson : String) (fence : LeaseFence)
  | requestRunCancellation (id : String) (now : Int)
  | markRunFinished (id : String) (outcome : RunOutcome) (exitCode : Option Int) (now : Int) (fence : LeaseFence)
  | markRunCancellationFinished (id : String) (outcome : RunOutcome) (now : Int) (fence : LeaseFence)
  deriving DecidableEq

def execute (lower : String → String) (db : Database) : Statement → Database × Bool
  | .createRun input now => createRun db input now
  | .recordInitialRunExternalId id externalRunId providerState fence =>
    recordInitialRunExternalId db id externalRunId providerState fence
  | .checkpointRunProviderState id providerState fence => checkpointRunProviderState db id providerState fence
  | .markRunStarted id logKey now fence => markRunStarted db id logKey now fence
  | .markRunSuperseded id supersededBy now fence => markRunSuperseded db id supersededBy now fence
  | .setRunCommit id commitSha fence => setRunCommit lower db id commitSha fence
  | .recordRunMigrationBarrier id installs fence => recordRunMigrationBarrier db id installs fence
  | .recordRunSnapshot id snapshotJson fence => recordRunSnapshot db id snapshotJson fence
  | .recordRunClassification id classificationJson fence => recordRunClassification db id classificationJson fence
  | .parkRunForApproval id classificationJson fence => parkRunForApproval db id classificationJson fence
  | .approveParkedRun id classificationJson approvalJson fence => approveParkedRun db id classificationJson approvalJson fence
  | .rejectParkedRun id classificationJson now fence => rejectParkedRun db id classificationJson now fence
  | .publishRunSnapshot id expected snapshotJson fence => publishRunSnapshot db id expected snapshotJson fence
  | .requestRunCancellation id now => requestRunCancellation db id now
  | .markRunFinished id outcome exitCode now fence => markRunFinished db id outcome exitCode now fence
  | .markRunCancellationFinished id outcome now fence => markRunCancellationFinished db id outcome now fence

/-- The run a fenced statement writes, and its fence. -/
def Statement.fenced : Statement → Option (String × LeaseFence)
  | .createRun _ _ => none
  | .requestRunCancellation _ _ => none
  | .recordInitialRunExternalId id _ _ fence => some (id, fence)
  | .checkpointRunProviderState id _ fence => some (id, fence)
  | .markRunStarted id _ _ fence => some (id, fence)
  | .markRunSuperseded id _ _ fence => some (id, fence)
  | .setRunCommit id _ fence => some (id, fence)
  | .recordRunMigrationBarrier id _ fence => some (id, fence)
  | .recordRunSnapshot id _ fence => some (id, fence)
  | .recordRunClassification id _ fence => some (id, fence)
  | .parkRunForApproval id _ fence => some (id, fence)
  | .approveParkedRun id _ _ fence => some (id, fence)
  | .rejectParkedRun id _ _ fence => some (id, fence)
  | .publishRunSnapshot id _ _ fence => some (id, fence)
  | .markRunFinished id _ _ _ fence => some (id, fence)
  | .markRunCancellationFinished id _ _ fence => some (id, fence)

/-- A statement, or a change of the lease; a lease expires by the time the next fence names. -/
inductive Event
  | statement (s : Statement)
  | acquire (key holder : String) (nowMs ttlMs : Int)
  | renew (key holder : String) (nowMs ttlMs : Int)
  | release (key holder : String)
  deriving DecidableEq

def next (lower : String → String) (db : Database) : Event → Database
  | .statement s => (execute lower db s).1
  | .acquire key holder nowMs ttlMs => (acquire db key holder nowMs ttlMs).1
  | .renew key holder nowMs ttlMs => (renew db key holder nowMs ttlMs).1
  | .release key holder => release db key holder

def Step (lower : String → String) (db : Database) (event : Event) (db' : Database) : Prop := db' = next lower db event

/-- A database without a run: nothing leased, nothing deployed. -/
def emptyDatabase : Database := ⟨[], fun _ => none, fun _ => none, fun _ => none⟩

end Fabrika.Control.Runs
