/-
  Fabrika.Control.Lease — control/src/lease.ts over platform/src/deploy-locks-sql.ts: any number of
  processes taking, renewing and leaving the lease of one key.

  Actors. Each `acquireLease` call has a holder of its own (a fresh UUID) and, once the store
  answers, one `HeldLease` with its renew loop. They read one clock, which `tick` moves. A store
  call reads the clock when it binds its statement (`…Sent`), its statement executes at any later
  time (`…Executed`) or never, and its answer may come (`…Answered`) or be lost (`…Failed`): a
  failed call's statement can still execute. A timer may fire at any time, so nothing is assumed
  of how long the loop waits or when the timeout of a renewal wins its race.
-/

import Mathlib.Data.List.Basic
import Mathlib.Logic.Function.Basic

namespace Fabrika.Control.Lease

def leaseTtlMs : Nat := 90000

def leaseRenewMs : Nat := 30000

/-- The local deadline ends one renew period before the stored expiry. -/
def localTtlMs : Nat := leaseTtlMs - leaseRenewMs

/-! ## The store -/

abbrev Holder := Nat

structure Row where
  holder : Holder
  expiresAt : Nat
  deriving DecidableEq

/-- `INSERT … ON CONFLICT DO UPDATE … WHERE expires_at <= ?`, and whether it changed a row. -/
def acquire (row : Option Row) (holder : Holder) (ttlMs now : Nat) : Option Row × Bool :=
  match row with
  | none => (some ⟨holder, now + ttlMs⟩, true)
  | some held => if held.expiresAt ≤ now then (some ⟨holder, now + ttlMs⟩, true) else (row, false)

/-- `UPDATE … WHERE holder = ? AND expires_at > ?`. -/
def renew (row : Option Row) (holder : Holder) (ttlMs now : Nat) : Option Row × Bool :=
  match row with
  | none => (none, false)
  | some held =>
    if held.holder = holder ∧ now < held.expiresAt then (some { held with expiresAt := now + ttlMs }, true) else (row, false)

/-- `DELETE … WHERE holder = ?`. -/
def release (row : Option Row) (holder : Holder) : Option Row := row.filter fun held => held.holder ≠ holder

/-! ## The parties -/

/-- A store call: made, its statement bound at a clock reading, or executed with whether it changed a row. -/
inductive Call
  | made
  | sent (now : Nat)
  | executed (changed : Bool)
  deriving DecidableEq

structure HeldLease where
  deadline : Nat
  aborted : Bool
  /-- The renew loop runs. -/
  renewing : Bool
  deriving DecidableEq

structure Party where
  /-- When `acquireLease` read the clock, and its store call. -/
  acquisition : Option (Nat × Call)
  /-- `acquireLease` returned or threw. -/
  settled : Bool
  lease : Option HeldLease
  /-- When the last renewal started, and its store call, until its answer. -/
  renewal : Option (Nat × Call)
  /-- `release` calls that wait for the loop, and their statements in flight. -/
  releasing : Nat
  deletes : Nat
  deriving DecidableEq

def Party.idle : Party := ⟨none, false, none, none, 0, 0⟩

def HeldLease.abandon (lease : HeldLease) : HeldLease := { lease with aborted := true }

/-- Whether it does not throw, and the lease behind it. -/
def HeldLease.assertHeld (lease : HeldLease) (now : Nat) : HeldLease × Bool :=
  let checked := if lease.deadline ≤ now then lease.abandon else lease
  (checked, !checked.aborted)

/-- The loop ends, and abandons the lease. -/
def HeldLease.ended (lease : HeldLease) : HeldLease := { lease with renewing := false, aborted := true }

inductive Action
  | acquireLease
  | acquireSent
  | acquireExecuted
  | acquireAnswered
  | acquireFailed
  /-- The loop's wait is over: it reads the clock and renews. -/
  | renewStarted
  | renewSent
  | renewExecuted
  | renewAnswered
  /-- The renewal threw, or its timeout won the race. -/
  | renewFailed
  /-- The loop's wait threw. -/
  | waitFailed
  | assertHeld
  | abandon
  | release
  | releaseSent
  | releaseExecuted
  deriving DecidableEq

/-- What an action of the holder makes of its party and of the row; an action it cannot take changes nothing. -/
def act (now : Nat) (row : Option Row) (holder : Holder) (p : Party) : Action → Party × Option Row
  | .acquireLease =>
    match p.acquisition with
    | none => ({ p with acquisition := some (now, .made) }, row)
    | some _ => (p, row)
  | .acquireSent =>
    match p.acquisition with
    | some (acquiredAt, .made) => ({ p with acquisition := some (acquiredAt, .sent now) }, row)
    | _ => (p, row)
  | .acquireExecuted =>
    match p.acquisition with
    | some (acquiredAt, .sent bound) =>
      let result := acquire row holder leaseTtlMs bound
      ({ p with acquisition := some (acquiredAt, .executed result.2) }, result.1)
    | _ => (p, row)
  | .acquireAnswered =>
    match p.acquisition with
    | some (acquiredAt, .executed changed) =>
      if p.settled then (p, row)
      else if changed then ({ p with settled := true, lease := some ⟨acquiredAt + localTtlMs, false, true⟩ }, row)
      else ({ p with settled := true }, row)
    | _ => (p, row)
  | .acquireFailed => ({ p with settled := true }, row)
  | .renewStarted =>
    match p.lease, p.renewal with
    | some lease, none =>
      if lease.renewing then
        if lease.deadline ≤ now then ({ p with lease := some lease.ended }, row)
        else ({ p with renewal := some (now, .made) }, row)
      else (p, row)
    | _, _ => (p, row)
  | .renewSent =>
    match p.renewal with
    | some (started, .made) => ({ p with renewal := some (started, .sent now) }, row)
    | _ => (p, row)
  | .renewExecuted =>
    match p.renewal with
    | some (started, .sent bound) =>
      let result := renew row holder leaseTtlMs bound
      ({ p with renewal := some (started, .executed result.2) }, result.1)
    | _ => (p, row)
  | .renewAnswered =>
    match p.lease, p.renewal with
    | some lease, some (started, .executed changed) =>
      if lease.renewing then
        if changed then
          ({ p with
              renewal := none
              lease := some { lease with deadline := started + localTtlMs, renewing := !lease.aborted } }, row)
        else ({ p with renewal := none, lease := some lease.ended }, row)
      else (p, row)
    | _, _ => (p, row)
  | .renewFailed =>
    match p.lease, p.renewal with
    | some lease, some _ => (if lease.renewing then { p with lease := some lease.ended } else p, row)
    | _, _ => (p, row)
  | .waitFailed =>
    match p.lease, p.renewal with
    | some lease, none => (if lease.renewing then { p with lease := some lease.ended } else p, row)
    | _, _ => (p, row)
  | .assertHeld => ({ p with lease := p.lease.map fun lease => (lease.assertHeld now).1 }, row)
  | .abandon => ({ p with lease := p.lease.map HeldLease.abandon }, row)
  | .release =>
    match p.lease with
    | some lease => ({ p with lease := some lease.abandon, releasing := p.releasing + 1 }, row)
    | none => (p, row)
  | .releaseSent =>
    match p.lease with
    | some lease =>
      if 0 < p.releasing ∧ lease.renewing = false then
        ({ p with releasing := p.releasing - 1, deletes := p.deletes + 1 }, row)
      else (p, row)
    | none => (p, row)
  | .releaseExecuted =>
    if 0 < p.deletes then ({ p with deletes := p.deletes - 1 }, Lease.release row holder) else (p, row)

/-! ## Runs -/

structure World where
  now : Nat
  row : Option Row
  party : Holder → Party

inductive Event
  | tick (ms : Nat)
  | act (holder : Holder) (action : Action)
  deriving DecidableEq

def World.start (now : Nat) : World := ⟨now, none, fun _ => .idle⟩

def World.step (w : World) : Event → World
  | .tick ms => { w with now := w.now + ms }
  | .act holder action =>
    let result := act w.now w.row holder (w.party holder) action
    { w with row := result.2, party := Function.update w.party holder result.1 }

def World.after (w : World) (events : List Event) : World := events.foldl World.step w

/-- `assertHeld` would not throw now. -/
def World.passes (w : World) (holder : Holder) : Bool := (w.party holder).lease.any fun lease => (lease.assertHeld w.now).2

end Fabrika.Control.Lease
