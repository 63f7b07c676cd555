/-
  Fabrika.Db.JobLeases — job-leases.ts: the lease a job run takes and the generation that
  fences every write of the attempt holding it.

  A lease statement reads and writes one row of `fabrika_job_leases`; here each is a
  function of that row, `none` where its `where` clause matches nothing. Times are
  microseconds of the database's clock. `now()` is the start of the statement's
  transaction, so a statement that waited for a lock runs at a time before the clock.

  The step system is Postgres': a fenced transaction locks the lease row `for share` from
  its fence check to its end, and every lease statement that would change the row waits
  for it (`skip locked` gives up instead). On SQLite the checks are the same and no other
  event runs while the transaction is open, so its runs are runs of this system.
-/

import Mathlib.Logic.Function.Basic
import Fabrika.Lib.Run

namespace Fabrika.Db.JobLeases

open Fabrika.Lib

/-! ## Lease rows and statements -/

abbrev Time := Int

/-- The durations `milliseconds` lets through: whole, safe and at least 1. -/
abbrev Milliseconds := { n : Int // 1 ≤ n ∧ n ≤ 9007199254740991 }

def after (now : Time) (ms : Milliseconds) : Time := now + 1000 * ms.1

inductive JobOutcome
  | succeeded
  | failed
  deriving DecidableEq

structure Lease where
  generation : Nat
  /-- The attempt holding the lease, `none` when it is free. -/
  holder : Option String
  expiresAt : Time
  /-- No write of the holding attempt commits after this. -/
  attemptDeadline : Time
  firstSeenAt : Time
  lastStartedAt : Option Time
  lastFinishedAt : Option Time
  lastStatus : Option JobOutcome
  lastSucceededAt : Option Time
  lastDurationMs : Option Int
  lastMissedReportedAt : Option Time
  deriving DecidableEq

structure LeaseFence where
  job : String
  holder : String
  generation : Nat
  deriving DecidableEq

/-- `(extract(epoch from now() - last_started_at) * 1000)::int`. -/
def runMs (now : Time) (l : Lease) : Option Int := l.lastStartedAt.map fun started => (now - started + 500) / 1000

/-- The match every fenced statement makes: `generation = $2 and holder = $3`. -/
def Holds (fence : LeaseFence) (l : Lease) : Prop := l.generation = fence.generation ∧ l.holder = some fence.holder

instance (fence : LeaseFence) (l : Lease) : Decidable (Holds fence l) := inferInstanceAs (Decidable (_ ∧ _))

/-- `SQL_REGISTER`. -/
def register (now : Time) : Option Lease → Lease
  | some l => l
  | none => ⟨0, none, now, now, now, none, none, none, none, none, none⟩

/-- `SQL_REAP`. -/
def reap (now : Time) (l : Lease) : Option Lease :=
  if l.holder ≠ none ∧ l.expiresAt ≤ now then
    some { l with holder := none, lastStatus := some .failed, lastFinishedAt := some now, lastDurationMs := runMs now l }
  else none

/-- The row a free lease becomes when `holder` takes it. -/
def takenBy (now : Time) (holder : String) (leaseMs attemptMs : Milliseconds) (l : Lease) : Lease :=
  { l with
    generation := l.generation + 1
    holder := some holder
    expiresAt := after now leaseMs
    attemptDeadline := after now attemptMs
    lastStartedAt := some now }

/-- `SQL_ACQUIRE`. -/
def acquire (now : Time) (holder : String) (leaseMs attemptMs : Milliseconds) : Option Lease → Option Lease
  | none => some ⟨1, some holder, after now leaseMs, after now attemptMs, now, some now, none, none, none, none, none⟩
  | some l => if l.holder = none then some (takenBy now holder leaseMs attemptMs l) else none

/-- `SQL_TRY_ACQUIRE`, of a row no other transaction holds. -/
def tryAcquire (now : Time) (holder : String) (leaseMs attemptMs : Milliseconds) : Option Lease → Option Lease
  | none => none
  | some l => if l.holder = none then some (takenBy now holder leaseMs attemptMs l) else none

/-- `SQL_RENEW`. -/
def renew (now : Time) (fence : LeaseFence) (holder : String) (leaseMs attemptMs : Milliseconds) (l : Lease) : Option Lease :=
  if Holds fence l ∧ l.expiresAt > now then
    some { l with
      generation := l.generation + 1
      holder := some holder
      expiresAt := after now leaseMs
      attemptDeadline := after now attemptMs }
  else none

/-- `SQL_FINISH`. -/
def finish (now : Time) (fence : LeaseFence) (outcome : JobOutcome) (l : Lease) : Option Lease :=
  if Holds fence l then
    some { l with
      holder := none
      lastFinishedAt := some now
      lastStatus := some outcome
      lastDurationMs := runMs now l
      lastSucceededAt := if outcome = .succeeded then some now else l.lastSucceededAt }
  else none

/-- `SQL_CLAIM_OVERDUE`. -/
def claimOverdue (now : Time) (period : Milliseconds) (l : Lease) : Option Lease :=
  if l.lastSucceededAt.getD l.firstSeenAt < now - 2 * (1000 * period.1) ∧
      l.lastMissedReportedAt.all (fun reported => reported ≤ now - 1000 * period.1) then
    some { l with lastMissedReportedAt := some now }
  else none

/-- `SQL_FENCE` and `SQL_STILL_HELD`: the attempt holds its lease within its deadline. -/
def StillHeld (clock : Time) (fence : LeaseFence) (l : Lease) : Prop := Holds fence l ∧ l.attemptDeadline > clock

/-! ## The step system -/

/-- How far a fenced transaction is: its fence check passed, its work done, or the check
    before its commit passed. -/
inductive Phase
  | fenced
  | worked
  | checked
  deriving DecidableEq

structure Transaction where
  fence : LeaseFence
  phase : Phase
  deriving DecidableEq

structure St where
  clock : Time
  leases : String → Option Lease
  /-- The fenced transactions open now. -/
  transactions : List Transaction
  /-- The attempts `cancelInFlight` ended. -/
  ended : List LeaseFence

def init : St := ⟨0, fun _ => none, [], []⟩

/-- Some open fenced transaction holds the job's lease row `for share`. -/
def Locked (s : St) (job : String) : Prop := ∃ t ∈ s.transactions, t.fence.job = job

/-- A statement's event carries its answer: the fence it returned, or whether it changed
    the row. -/
inductive Ev
  | tick
  | register (job : String)
  | acquire (job : String) (answer : Option LeaseFence)
  | tryAcquire (job : String) (answer : Option LeaseFence)
  | renew (fence : LeaseFence) (answer : Option LeaseFence)
  | reapCrashed (job : String) (freed : Bool)
  | finish (fence : LeaseFence) (freed : Bool)
  | claimOverdue (job : String) (claimed : Bool)
  | fence (fence : LeaseFence) (opened : Bool)
  | work (fence : LeaseFence)
  | stillHeld (fence : LeaseFence)
  | commit (fence : LeaseFence)
  | rollback (fence : LeaseFence)
  | cancelInFlight (fence : LeaseFence)
  deriving DecidableEq

/-- The fence a successful acquire, tryAcquire or renew returned. -/
def Ev.issued : Ev → Option LeaseFence
  | .acquire _ answer => answer
  | .tryAcquire _ answer => answer
  | .renew _ answer => answer
  | _ => none

def St.put (s : St) (job : String) (l : Lease) : St := { s with leases := Function.update s.leases job (some l) }

def St.swap (s : St) (t t' : Transaction) : St := { s with transactions := t' :: s.transactions.erase t }

def St.drop (s : St) (t : Transaction) : St := { s with transactions := s.transactions.erase t }

inductive Step : St → Ev → St → Prop
  | tick (s : St) (later : Time) : s.clock ≤ later → Step s .tick { s with clock := later }
  /-- `on conflict do nothing` waits for no lock. -/
  | register (s : St) (job : String) (now : Time) : now ≤ s.clock →
      Step s (.register job) (s.put job (register now (s.leases job)))
  | acquire (s : St) (job holder : String) (leaseMs attemptMs : Milliseconds) (now : Time) (l : Lease) : now ≤ s.clock →
      ¬ Locked s job → acquire now holder leaseMs attemptMs (s.leases job) = some l →
      Step s (.acquire job (some ⟨job, holder, l.generation⟩)) (s.put job l)
  | acquireNone (s : St) (job holder : String) (leaseMs attemptMs : Milliseconds) (now : Time) : now ≤ s.clock →
      acquire now holder leaseMs attemptMs (s.leases job) = none → Step s (.acquire job none) s
  | tryAcquire (s : St) (job holder : String) (leaseMs attemptMs : Milliseconds) (now : Time) (l : Lease) : now ≤ s.clock →
      ¬ Locked s job → tryAcquire now holder leaseMs attemptMs (s.leases job) = some l →
      Step s (.tryAcquire job (some ⟨job, holder, l.generation⟩)) (s.put job l)
  /-- The row is held by a run, or locked and skipped. -/
  | tryAcquireNone (s : St) (job holder : String) (leaseMs attemptMs : Milliseconds) (now : Time) : now ≤ s.clock →
      Locked s job ∨ tryAcquire now holder leaseMs attemptMs (s.leases job) = none → Step s (.tryAcquire job none) s
  | renew (s : St) (fence : LeaseFence) (holder : String) (leaseMs attemptMs : Milliseconds) (now : Time) (l : Lease) :
      now ≤ s.clock → ¬ Locked s fence.job → (s.leases fence.job).bind (renew now fence holder leaseMs attemptMs) = some l →
      Step s (.renew fence (some ⟨fence.job, holder, l.generation⟩)) (s.put fence.job l)
  | renewNone (s : St) (fence : LeaseFence) (holder : String) (leaseMs attemptMs : Milliseconds) (now : Time) :
      now ≤ s.clock → (s.leases fence.job).bind (renew now fence holder leaseMs attemptMs) = none →
      Step s (.renew fence none) s
  | reap (s : St) (job : String) (now : Time) (l : Lease) : now ≤ s.clock → ¬ Locked s job →
      (s.leases job).bind (reap now) = some l → Step s (.reapCrashed job true) (s.put job l)
  | reapNone (s : St) (job : String) (now : Time) : now ≤ s.clock → (s.leases job).bind (reap now) = none →
      Step s (.reapCrashed job false) s
  | finish (s : St) (fence : LeaseFence) (outcome : JobOutcome) (now : Time) (l : Lease) : now ≤ s.clock →
      ¬ Locked s fence.job → (s.leases fence.job).bind (finish now fence outcome) = some l →
      Step s (.finish fence true) (s.put fence.job l)
  | finishNone (s : St) (fence : LeaseFence) (outcome : JobOutcome) (now : Time) : now ≤ s.clock →
      (s.leases fence.job).bind (finish now fence outcome) = none → Step s (.finish fence false) s
  | overdue (s : St) (job : String) (period : Milliseconds) (now : Time) (l : Lease) : now ≤ s.clock → ¬ Locked s job →
      (s.leases job).bind (claimOverdue now period) = some l → Step s (.claimOverdue job true) (s.put job l)
  | overdueNone (s : St) (job : String) (period : Milliseconds) (now : Time) : now ≤ s.clock →
      (s.leases job).bind (claimOverdue now period) = none → Step s (.claimOverdue job false) s
  /-- `fencedTransaction` up to its work: the attempt has not ended, and its row is locked. -/
  | fence (s : St) (fence : LeaseFence) (l : Lease) : fence ∉ s.ended → s.leases fence.job = some l →
      StillHeld s.clock fence l →
      Step s (.fence fence true) { s with transactions := ⟨fence, .fenced⟩ :: s.transactions }
  | fenceLost (s : St) (fence : LeaseFence) :
      fence ∈ s.ended ∨ (∀ l, s.leases fence.job = some l → ¬ StillHeld s.clock fence l) → Step s (.fence fence false) s
  | work (s : St) (fence : LeaseFence) : ⟨fence, .fenced⟩ ∈ s.transactions →
      Step s (.work fence) (s.swap ⟨fence, .fenced⟩ ⟨fence, .worked⟩)
  | stillHeld (s : St) (fence : LeaseFence) (l : Lease) : ⟨fence, .worked⟩ ∈ s.transactions → fence ∉ s.ended →
      s.leases fence.job = some l → StillHeld s.clock fence l →
      Step s (.stillHeld fence) (s.swap ⟨fence, .worked⟩ ⟨fence, .checked⟩)
  | commit (s : St) (fence : LeaseFence) : ⟨fence, .checked⟩ ∈ s.transactions →
      Step s (.commit fence) (s.drop ⟨fence, .checked⟩)
  /-- A failed check or statement, a timeout, an abort or a lost connection, at any point. -/
  | rollback (s : St) (t : Transaction) : t ∈ s.transactions → Step s (.rollback t.fence) (s.drop t)
  | cancelInFlight (s : St) (fence : LeaseFence) :
      Step s (.cancelInFlight fence) { s with ended := fence :: s.ended }

end Fabrika.Db.JobLeases
