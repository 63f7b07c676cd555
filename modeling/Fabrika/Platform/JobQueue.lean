/-
  Fabrika.Platform.JobQueue — platform-node/src/job-queue-postgres.ts: the jobs table and any
  number of consumers that poll it.

  Actors. Producers send under a fresh id at any time. A consumer's pass claims a batch in one
  statement, then takes its deliveries one by one: `begins` hands the next one to the decoder and, where
  that reads it, to the handler; the handler `returns` or `throws` at any later time; the ack or defer it
  leads to `settles` in a step of its own, or fails (`settlementFails`: poll logs it and goes on). A
  process `dies` at any point, also between two deliveries of a batch and between a claim and its answer;
  the consumer that polls again is a new one under the old name. All of them read one clock.

  A job's id is a UUIDv7; its place in the order of these texts stands for it. `decode` stands for
  JSON.parse and the consumer's decode, none where one of them throws.
-/

import Mathlib.Data.List.Sort
import Mathlib.Logic.Function.Basic

namespace Fabrika.Platform.JobQueue

/-! ## The jobs table -/

structure Row where
  id : Nat
  queue : String
  payload : String
  /-- Claimable once the clock is not before this (milliseconds). -/
  visibleAt : Int
  /-- Claims made so far. -/
  attempts : Nat
  maxAttempts : Nat
  createdAt : Int
  deriving DecidableEq

/-- A claimed delivery: `attempts` counts its own claim. -/
structure Job (T : Type) where
  id : Nat
  payload : T
  attempts : Nat
  maxAttempts : Nat
  deriving DecidableEq

def Row.due (queue : String) (now : Int) (row : Row) : Bool := row.queue == queue && decide (row.visibleAt ≤ now)

/-- `ORDER BY visible_at, id`. -/
def Row.before (a b : Row) : Prop := a.visibleAt < b.visibleAt ∨ a.visibleAt = b.visibleAt ∧ a.id ≤ b.id

instance : DecidableRel Row.before := fun a b =>
  inferInstanceAs (Decidable (a.visibleAt < b.visibleAt ∨ a.visibleAt = b.visibleAt ∧ a.id ≤ b.id))

/-- The ids the claim's sub-select takes; `locked` are the rows other statements hold (`SKIP LOCKED`). -/
def selected (rows : List Row) (queue : String) (now : Int) (limit : Nat) (locked : List Nat) : List Nat :=
  (((rows.filter fun row => row.due queue now && !locked.contains row.id).insertionSort Row.before).take limit).map (·.id)

def Row.claimed (visibleAt : Int) (row : Row) : Row := { row with visibleAt, attempts := row.attempts + 1 }

/-- `claimSql`: the rows it leaves and the rows it returns. -/
def claim (rows : List Row) (visibleAt : Int) (queue : String) (now : Int) (limit : Nat) (locked : List Nat) :
    List Row × List Row :=
  let ids := selected rows queue now limit locked
  (rows.map fun row => if row.id ∈ ids then row.claimed visibleAt else row,
    (rows.filter fun row => row.id ∈ ids).map (Row.claimed visibleAt))

def Row.job (row : Row) : Job String := ⟨row.id, row.payload, row.attempts, row.maxAttempts⟩

/-- `ackSql`. -/
def ack (rows : List Row) (id : Nat) : List Row := rows.filter (·.id ≠ id)

/-- `deferSql`. -/
def defer (rows : List Row) (id : Nat) (visibleAt : Int) : List Row :=
  rows.map fun row => if row.id = id then { row with visibleAt } else row

/-! ## Consumers -/

variable {T : Type}

/-- `PostgresJobConsumerOptions`, with the queue the consumer's `PostgresJobQueue` names. -/
structure Options (T : Type) where
  queue : String
  decode : String → Option T
  batchSize : Nat
  visibilityTimeoutMs : Int
  retryDelayMs : Nat → Int

def decodeJob (decode : String → Option T) (job : Job String) : Option (Job T) :=
  (decode job.payload).map fun payload => { job with payload }

inductive Settlement
  | ack
  | defer (visibleAt : Int)
  deriving DecidableEq

inductive Phase (T : Type)
  | handling (job : Job T) (startedAt : Int)
  | settling (settlement : Settlement)
  deriving DecidableEq

/-- A consumer's pass: the delivery it is at and those behind it. -/
structure Consumer (T : Type) where
  current : Option (Job String × Phase T)
  rest : List (Job String)
  deriving DecidableEq

def Consumer.idle : Consumer T := ⟨none, []⟩

/-- The deliveries the pass has claimed and not settled. -/
def Consumer.inHand (k : Consumer T) : List (Job String) := (k.current.map (·.1)).toList ++ k.rest

/-- What a failed delivery leads to: dropped at its last attempt, else tried again. -/
def failed (options : Options T) (now : Int) (job : Job String) : Settlement :=
  if job.maxAttempts ≤ job.attempts then .ack else .defer (now + options.retryDelayMs job.attempts)

/-! ## Runs -/

/-- An ack or defer that met its job's row: its delivery's number, and the row's. -/
structure Settled where
  id : Nat
  delivery : Nat
  claim : Nat
  deriving DecidableEq

structure World (T : Type) where
  now : Int
  rows : List Row
  consumers : Nat → Consumer T
  /-- The attempts each id was sent with, how often it was handed over, whether a handler call for it
      returned, whether a delivery without further attempts failed, and every settlement. -/
  sent : Nat → Option Nat
  handed : Nat → Nat
  returned : Nat → Bool
  spent : Nat → Bool
  settlements : List Settled

def World.start (now : Int) : World T :=
  ⟨now, [], fun _ => .idle, fun _ => none, fun _ => 0, fun _ => false, fun _ => false, []⟩

inductive Event
  | tick (ms : Nat)
  | send (id : Nat) (queue payload : String) (delaySeconds : Int) (maxAttempts : Nat)
  | poll (consumer : Nat) (locked : List Nat)
  | begins (consumer : Nat)
  | returns (consumer : Nat)
  | throws (consumer : Nat)
  | settles (consumer : Nat)
  | settlementFails (consumer : Nat)
  | dies (consumer : Nat)
  deriving DecidableEq

def World.setConsumer (w : World T) (c : Nat) (k : Consumer T) : World T :=
  { w with consumers := Function.update w.consumers c k }

def World.send (w : World T) (id : Nat) (queue payload : String) (delaySeconds : Int) (maxAttempts : Nat) : World T :=
  if (w.sent id).isSome then w
  else { w with
    rows := w.rows ++ [⟨id, queue, payload, w.now + max 0 delaySeconds * 1000, 0, maxAttempts, w.now⟩]
    sent := Function.update w.sent id (some maxAttempts) }

/-- `claimRaw` of an idle consumer: its batch comes back in the order of the ids. -/
def World.claimRaw (options : Options T) (w : World T) (c : Nat) (locked : List Nat) : World T :=
  if (w.consumers c).inHand = [] then
    let claimed := claim w.rows (w.now + options.visibilityTimeoutMs) options.queue w.now options.batchSize locked
    { w with rows := claimed.1 }.setConsumer c ⟨none, (claimed.2.insertionSort fun (a b : Row) => a.id ≤ b.id).map Row.job⟩
  else w

def World.fails (w : World T) (job : Job String) : World T :=
  if job.maxAttempts ≤ job.attempts then { w with spent := Function.update w.spent job.id true } else w

/-- `handleRaw` of the next delivery, up to the handler's call or the settlement of a delivery no decoder reads. -/
def World.begins (options : Options T) (w : World T) (c : Nat) : World T :=
  match (w.consumers c).current, (w.consumers c).rest with
  | none, raw :: rest =>
    let w := { w with handed := Function.update w.handed raw.id (w.handed raw.id + 1) }
    match decodeJob options.decode raw with
    | some job => w.setConsumer c ⟨some (raw, .handling job w.now), rest⟩
    | none => (w.fails raw).setConsumer c ⟨some (raw, .settling (failed options w.now raw)), rest⟩
  | _, _ => w

def World.returns (w : World T) (c : Nat) : World T :=
  match (w.consumers c).current with
  | some (raw, .handling _ _) =>
    { w with returned := Function.update w.returned raw.id true }.setConsumer c
      ⟨some (raw, .settling .ack), (w.consumers c).rest⟩
  | _ => w

def World.throws (options : Options T) (w : World T) (c : Nat) : World T :=
  match (w.consumers c).current with
  | some (raw, .handling _ _) =>
    (w.fails raw).setConsumer c ⟨some (raw, .settling (failed options w.now raw)), (w.consumers c).rest⟩
  | _ => w

def Settlement.apply (rows : List Row) (id : Nat) : Settlement → List Row
  | .ack => JobQueue.ack rows id
  | .defer visibleAt => JobQueue.defer rows id visibleAt

def settledOn (rows : List Row) (raw : Job String) : List Settled :=
  (rows.filter fun row => row.id = raw.id).map fun row => ⟨raw.id, raw.attempts, row.attempts⟩

def World.settles (w : World T) (c : Nat) : World T :=
  match (w.consumers c).current with
  | some (raw, .settling settlement) =>
    { w with
      rows := settlement.apply w.rows raw.id
      settlements := w.settlements ++ settledOn w.rows raw
    }.setConsumer c ⟨none, (w.consumers c).rest⟩
  | _ => w

def World.settlementFails (w : World T) (c : Nat) : World T :=
  match (w.consumers c).current with
  | some (_, .settling _) => w.setConsumer c ⟨none, (w.consumers c).rest⟩
  | _ => w

def World.step (options : Nat → Options T) (w : World T) : Event → World T
  | .tick ms => { w with now := w.now + ms }
  | .send id queue payload delaySeconds maxAttempts => w.send id queue payload delaySeconds maxAttempts
  | .poll c locked => w.claimRaw (options c) c locked
  | .begins c => w.begins (options c) c
  | .returns c => w.returns c
  | .throws c => w.throws (options c) c
  | .settles c => w.settles c
  | .settlementFails c => w.settlementFails c
  | .dies c => w.setConsumer c .idle

def World.after (options : Nat → Options T) (w : World T) (events : List Event) : World T := events.foldl (World.step options) w

/-- The consumer runs the handler for the job. -/
def World.Runs (w : World T) (c id : Nat) : Prop :=
  ∃ raw job startedAt, (w.consumers c).current = some (raw, .handling job startedAt) ∧ raw.id = id

/-- The consumer's handler call, if any, has not run for longer than the timeout. -/
def Consumer.inTime (now timeoutMs : Int) (k : Consumer T) : Bool :=
  match k.current with
  | some (_, .handling _ startedAt) => decide (now ≤ startedAt + timeoutMs)
  | _ => true

/-- No handler call has run for longer than its consumer's visibility timeout. -/
def World.InTime (options : Nat → Options T) (w : World T) : Prop :=
  ∀ c, (w.consumers c).inTime w.now (options c).visibilityTimeoutMs = true

end Fabrika.Platform.JobQueue
