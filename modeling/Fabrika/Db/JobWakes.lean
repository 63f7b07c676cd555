/-
  Fabrika.Db.JobWakes — job-wakes.ts: a job's durable pending work, one row of
  `fabrika_wakes` per due unit, and the scheduler's next wake over it and the leases.

  A run owns the wakes due when it took its lease, marked in that transaction; a wake
  written or merged into afterwards is not its, except by a cron merge, whose next fire
  that run's finish schedules. Only the finish of the run consumes or retries what it owns
  (`leaseProjection`). Each transaction here is one step; a refusal rolls it back.

  Wakes are due in epoch milliseconds, the leases' times are the clock's microseconds.
-/

import Mathlib.Data.List.AList
import Fabrika.Db.JobLeases

namespace Fabrika.Db.JobWakes

open Fabrika.Lib Fabrika.Db.JobLeases

/-! ## Wakes -/

inductive WakeReason
  | cron
  | kick
  | claim
  | retry
  deriving DecidableEq

structure Wake where
  id : Nat
  job : String
  reason : WakeReason
  dueAt : Int
  /-- How many failed runs moved this wake. -/
  attempt : Nat
  dedupe : Option String
  /-- Taken by the run that holds its job's lease, when that run took it. -/
  owned : Bool
  deriving DecidableEq

/-- A wake `newWake` lets through: a named job and, where there is one, a named key. -/
structure NewWake where
  job : String
  reason : WakeReason
  dueAt : Int
  dedupe : Option String
  named : job ≠ "" ∧ dedupe ≠ some ""
  deriving DecidableEq

def newWake (job : String) (reason : WakeReason) (dueAt : Int) (dedupe : Option String) : Option NewWake :=
  if named : job ≠ "" ∧ dedupe ≠ some "" then some ⟨job, reason, dueAt, dedupe, named⟩ else none

/-- `floor(extract(epoch from t) * 1000)`. -/
def epochMs (t : Time) : Int := t / 1000

/-- The merge of `SQL_SCHEDULE` into the row its key conflicts with. -/
def Wake.merge (w : Wake) (new : NewWake) : Wake :=
  { w with dueAt := min w.dueAt new.dueAt, owned := w.owned && new.reason == .cron }

def rowOf (id : Nat) (new : NewWake) : Wake := ⟨id, new.job, new.reason, new.dueAt, 0, new.dedupe, false⟩

/-- What `SQL_SCHEDULE` answers: the rows after it, the row that holds the wake and whether
    it was there before. -/
structure Scheduled where
  rows : List Wake
  row : Wake
  merged : Bool

/-- `SQL_SCHEDULE` under a fresh id; `none` where another job's row holds the key. -/
def schedule (id : Nat) (new : NewWake) (wakes : List Wake) : Option Scheduled :=
  match new.dedupe.bind fun key => wakes.find? fun w => w.dedupe == some key with
  | none => some ⟨wakes ++ [rowOf id new], rowOf id new, false⟩
  | some w =>
    if w.job = new.job then
      some ⟨wakes.map fun w' => if w'.id = w.id then w'.merge new else w', w.merge new, true⟩
    else none

/-- `SQL_OWN`: `start` is the run's start in epoch milliseconds. -/
def own (job : String) (start : Option Int) (wakes : List Wake) : List Wake :=
  wakes.map fun w => if w.job = job then { w with owned := start.any fun start => w.dueAt ≤ start } else w

/-- `SQL_DISOWN`. -/
def disown (job : String) (wakes : List Wake) : List Wake :=
  wakes.map fun w => if w.job = job ∧ w.owned = true then { w with owned := false } else w

/-- `SQL_CONSUME`. -/
def consume (job : String) (wakes : List Wake) : List Wake := wakes.filter fun w => !(w.job == job && w.owned)

/-- `SQL_RETRY`. -/
def retry (job : String) (at_ : Int) (wakes : List Wake) : List Wake :=
  wakes.map fun w =>
    if w.job = job ∧ w.owned = true then { w with dueAt := at_, attempt := w.attempt + 1, owned := false } else w

/-- `SQL_DROP_CLAIM`. -/
def dropClaim (job key : String) (wakes : List Wake) : List Wake :=
  wakes.filter fun w => !(w.job == job && w.dedupe == some key)

/-! ## What a lease change does to the wakes -/

inductive FinishWakes
  | completed (nextCron : Option (String × Int))
  | retry (at_ : Int)
  deriving DecidableEq

/-- A finish's instruction with the default filled in, `some none` leaving the wakes; `none`
    refuses the finish. -/
def finishWakes (outcome : JobOutcome) : Option FinishWakes → Option (Option FinishWakes)
  | none => some (if outcome = .succeeded then some (.completed none) else none)
  | some (.retry at_) => if outcome = .failed then some (some (.retry at_)) else none
  | some (.completed none) => some (some (.completed none))
  | some (.completed (some next)) => if next.1 = "" then none else some (some (.completed (some next)))

def cronKey (job expression : String) : String := "cron:" ++ job ++ ":" ++ expression

/-- The wakes a finish leaves: its instruction, then none of the job's is owned. -/
def finished (id : Nat) (job : String) (wakes : List Wake) : Option FinishWakes → Option (List Wake)
  | none => some (disown job wakes)
  | some (.retry at_) => some (disown job (retry job at_ wakes))
  | some (.completed none) => some (disown job (consume job wakes))
  | some (.completed (some next)) => do
    let new ← newWake job .cron next.2 (some (cronKey job next.1))
    let scheduled ← schedule id new (consume job wakes)
    return disown job scheduled.rows

/-- A job's one claim wake: each attempt's first claim replaces it. -/
def claimKey (job : String) : String := "claim:" ++ job

/-- The re-arm of an attempt: its earliest so far, `earlier`, and this claim's. -/
def rearmDue (earlier candidate : Option Int) : Option Int :=
  match earlier, candidate with
  | none, candidate => candidate
  | some e, none => some e
  | some e, some c => some (min e c)

def rearmed (id : Nat) (job : String) (due : Option Int) (wakes : List Wake) : Option (List Wake) :=
  match due with
  | none => some (dropClaim job (claimKey job) wakes)
  | some due => do
    let new ← newWake job .claim due (some (claimKey job))
    let scheduled ← schedule id new (dropClaim job (claimKey job) wakes)
    return scheduled.rows

/-! ## The step system -/

structure St where
  clock : Time
  leases : AList fun _ : String => Lease
  wakes : List Wake
  /-- The ids below it are taken. -/
  nextId : Nat
  /-- Each attempt's earliest claim re-arm so far. -/
  rearms : LeaseFence → Option Int

def init : St := ⟨0, ∅, [], 0, fun _ => none⟩

/-- The transactions that committed, with what they did. `took` is a successful acquire or
    tryAcquire; `scheduled` names the row that holds the wake and whether it merged into it. -/
inductive Ev
  | tick
  | registered (job : String)
  | scheduled (new : NewWake) (row : Wake) (merged : Bool)
  | took (job : String) (start : Time)
  | renewed (fence : LeaseFence)
  | finished (fence : LeaseFence) (wakes : Option FinishWakes)
  | reaped (job : String)
  | rearmed (job : String)
  | nothing
  deriving DecidableEq

inductive Step : St → Ev → St → Prop
  | tick (s : St) (later : Time) : s.clock ≤ later → Step s .tick { s with clock := later }
  | register (s : St) (job : String) (now : Time) : now ≤ s.clock →
      Step s (.registered job) { s with leases := s.leases.insert job (register now (s.leases.lookup job)) }
  | schedule (s : St) (new : NewWake) (r : Scheduled) : schedule s.nextId new s.wakes = some r →
      Step s (.scheduled new r.row r.merged) { s with wakes := r.rows, nextId := s.nextId + 1 }
  | acquire (s : St) (job holder : String) (leaseMs attemptMs : Milliseconds) (now : Time) (l : Lease) : now ≤ s.clock →
      acquire now holder leaseMs attemptMs (s.leases.lookup job) = some l →
      Step s (.took job now) { s with
        leases := s.leases.insert job l
        wakes := own job (l.lastStartedAt.map epochMs) s.wakes }
  | tryAcquire (s : St) (job holder : String) (leaseMs attemptMs : Milliseconds) (now : Time) (l : Lease) :
      now ≤ s.clock → tryAcquire now holder leaseMs attemptMs (s.leases.lookup job) = some l →
      Step s (.took job now) { s with
        leases := s.leases.insert job l
        wakes := own job (l.lastStartedAt.map epochMs) s.wakes }
  | renew (s : St) (fence : LeaseFence) (holder : String) (leaseMs attemptMs : Milliseconds) (now : Time) (l : Lease) :
      now ≤ s.clock → (s.leases.lookup fence.job).bind (renew now fence holder leaseMs attemptMs) = some l →
      Step s (.renewed fence) { s with leases := s.leases.insert fence.job l }
  | finish (s : St) (fence : LeaseFence) (outcome : JobOutcome) (given : Option FinishWakes)
      (change : Option FinishWakes) (now : Time) (l : Lease) (rows : List Wake) : now ≤ s.clock →
      finishWakes outcome given = some change →
      (s.leases.lookup fence.job).bind (finish now fence outcome) = some l →
      finished s.nextId fence.job s.wakes change = some rows →
      Step s (.finished fence change) { s with
        leases := s.leases.insert fence.job l, wakes := rows, nextId := s.nextId + 1 }
  | reap (s : St) (job : String) (now : Time) (l : Lease) : now ≤ s.clock →
      (s.leases.lookup job).bind (reap now) = some l →
      Step s (.reaped job) { s with leases := s.leases.insert job l, wakes := disown job s.wakes }
  | rearm (s : St) (fence : LeaseFence) (candidate : Option Int) (rows : List Wake) :
      rearmed s.nextId fence.job (rearmDue (s.rearms fence) candidate) s.wakes = some rows →
      Step s (.rearmed fence.job) { s with
        wakes := rows, nextId := s.nextId + 1
        rearms := Function.update s.rearms fence (rearmDue (s.rearms fence) candidate) }
  /-- The claim's transaction rolled back; the attempt's earliest re-arm stays noted. -/
  | rearmLost (s : St) (fence : LeaseFence) (candidate : Option Int) :
      Step s .nothing { s with rearms := Function.update s.rearms fence (rearmDue (s.rearms fence) candidate) }
  /-- A statement that matched no row, or a transaction that rolled back. -/
  | nothing (s : St) : Step s .nothing s

/-! ## The next wake -/

/-- A wake whose job's lease is free or expired. -/
def startable (s : St) (w : Wake) : Bool :=
  match s.leases.lookup w.job with
  | none => true
  | some l => l.holder == none || l.expiresAt ≤ s.clock

def earliestWake (s : St) : Option Int := ((s.wakes.filter (startable s)).map Wake.dueAt).min?

def heldExpiries (s : St) : List Time :=
  s.leases.entries.filterMap fun entry => if entry.2.holder = none then none else some entry.2.expiresAt

def nextCandidates (s : St) : List Int := [earliestWake s, (heldExpiries s).min?.map epochMs].filterMap fun value => value

/-- In epoch milliseconds. -/
def next (s : St) : Option Int := (nextCandidates s).min?

end Fabrika.Db.JobWakes
