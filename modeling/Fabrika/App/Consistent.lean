/-
  Fabrika.App.Consistent — one object that is dumped, imported into, restored and migrated while
  its maintenance barrier moves (app/cloudflare/export.ts, import.ts, restore.ts, ops.ts over
  maintenance.ts).

  The database is what a dump reads of it: the rows, the DDL, the two ledger tables and whether it
  holds an import marker. A data step holds the barrier's turn from `work` to `done`; an import
  write and an `arm` have been through `restrictedWrite` by then. An armed rewind takes
  effect when the next instance starts, and holds the turn until this one is gone. A put of the
  frozen record that fails has taken effect by then or never does.
-/

import Fabrika.App.Maintenance
import Mathlib.Data.Finset.Basic

namespace Fabrika.App.Consistent

open Fabrika.AuthCore.OpsState Fabrika.App.Maintenance

/-- A row of `fabrika_migrations`. -/
structure LedgerRow where
  bundle : String
  name : String
  checksum : String
  appliedAt : String
  deriving DecidableEq

structure Database (Rows : Type) where
  /-- Every dumped table but the two of the ledger. -/
  rows : Rows
  ddl : List String
  ledger : Finset LedgerRow
  /-- `fabrika_migration_bundles`. -/
  bundles : List (String × String)
  /-- The import marker. -/
  importing : Bool

/-- What `dumpState` hashes. -/
structure DumpState where
  frozenSince : Nat
  ddl : List String
  ledger : Finset LedgerRow
  bundles : List (String × String)
  deriving DecidableEq

/-- What a consistent dump's first `begin` saw and answered. -/
structure Begun (H : Type) where
  state : H
  uploadId : String
  bookmark : String

/-- A dump that has begun; `since`, `seen` and `writes` are what its record was made at. -/
structure Dump (Rows H : Type) where
  begun : Begun H
  completed : Bool
  since : Nat
  seen : Database Rows
  writes : Nat

structure Object (Rows H V : Type) where
  system : System V
  db : Database Rows
  /-- The database the next instance starts with. -/
  armed : Option (Database Rows)
  dumps : String → Option (Dump Rows H)
  /-- Writes that took effect: ordinary ones, those of an import, armed rewinds, applied migrations. -/
  writes : Nat

inductive Event (Rows : Type)
  | maintenance (event : Maintenance.Event)
  | write (event : BarrierEvent) (db : Database Rows)
  | migrate (db : Database Rows)
  | importWrite (db : Database Rows)
  | arm (target : Database Rows)
  | begin (dump uploadId bookmark : String) (recorded : Bool)
  | part (dump uploadId : String)
  | complete (dump uploadId bookmark : String)

variable {Rows H V : Type} [DecidableEq H] [DecidableEq V] (digest : DumpState → H) (etag : Nat → OpsPublishedState → V)

/-- What `dumpState` hashes. -/
def stateOf (db : Database Rows) (frozenSince : Nat) : DumpState := ⟨frozenSince, db.ddl, db.ledger, db.bundles⟩

def dumpState (db : Database Rows) (frozenSince : Nat) : H := digest (stateOf db frozenSince)

/-- The stretch an export step in the turn runs at; none refuses it as `wrong_mode`. -/
def stretch (o : Object Rows H V) : Option Nat :=
  match o.system.life with
  | .alive i => if i.barrier.mode = .open ∨ o.db.importing = true then none else i.barrier.frozenSince
  | _ => none

/-- Whether a step past `begin`, or a `begin` replayed, is accepted. -/
def accepts (o : Object Rows H V) (dump : String) (uploadId bookmark : Option String) : Bool :=
  match stretch o, o.dumps dump with
  | some frozenSince, some d =>
    decide (d.begun.state = dumpState digest o.db frozenSince) && uploadId.all (fun id => decide (id = d.begun.uploadId)) &&
      bookmark.all (fun bookmark => decide (bookmark = d.begun.bookmark))
  | _, _ => false

/-- The first `begin`, when the record of it takes effect. -/
def begin (o : Object Rows H V) (dump uploadId bookmark : String) (recorded : Bool) : Object Rows H V :=
  match stretch o, o.dumps dump with
  | some frozenSince, none =>
    if recorded then
      { o with dumps := Function.update o.dumps dump
                 (some ⟨⟨dumpState digest o.db frozenSince, uploadId, bookmark⟩, false, frozenSince, o.db, o.writes⟩) }
    else o
  | _, _ => o

def complete (o : Object Rows H V) (dump uploadId bookmark : String) : Object Rows H V :=
  if accepts digest o dump (some uploadId) (some bookmark) = true then
    { o with dumps := Function.update o.dumps dump ((o.dumps dump).map fun d => { d with completed := true }) }
  else o

/-- The next instance starts with the armed database. -/
def start (o : Object Rows H V) : Object Rows H V :=
  match o.system.life with
  | .absent => { o with db := o.armed.getD o.db, armed := none }
  | _ => o

def next (o : Object Rows H V) : Event Rows → Object Rows H V
  | .maintenance .load => { start o with system := Maintenance.next etag o.system .load }
  | .maintenance event => { o with system := Maintenance.next etag o.system event }
  | .write _ db => { o with db := db, writes := o.writes + 1 }
  | .migrate db => { o with db := db, writes := if db.ledger = o.db.ledger then o.writes else o.writes + 1 }
  | .importWrite db => { o with db := db, writes := o.writes + 1 }
  | .arm target => { o with armed := some target, writes := o.writes + 1 }
  | .begin dump uploadId bookmark recorded => begin digest o dump uploadId bookmark recorded
  | .part _ _ => o
  | .complete dump uploadId bookmark => complete digest o dump uploadId bookmark

/-- Each file is applied with its ledger row in one transaction, so without a new row no row of
    another table changes. -/
def Migrates (db db' : Database Rows) : Prop := db.ledger ⊆ db'.ledger ∧ (db'.ledger = db.ledger → db'.rows = db.rows)

/-- A data step runs in the turn. -/
def Working (o : Object Rows H V) (i : Instance V) : Prop :=
  o.system.life = .alive i ∧ o.armed = none ∧ ∃ cleared, i.turn = some (.working cleared)

/-- One that may write: `inspect`, and `restrictedWrite` has returned. -/
def Restricted (o : Object Rows H V) (i : Instance V) : Prop :=
  o.system.life = .alive i ∧ o.armed = none ∧ i.turn = some (.working true) ∧ i.barrier.mode = .inspect

/-- When an event can happen. -/
def Enabled (o : Object Rows H V) : Event Rows → Prop
  | .maintenance (.late index) => ∀ record, o.system.late[index]? ≠ some (.frozen record)
  | .maintenance .done => o.armed = none
  | .maintenance _ => True
  | .write event _ => ∃ i, o.system.life = .alive i ∧ event ∈ i.captured ∧ i.barrier.writable event.generation event.mode = true
  | .migrate db => Migrates o.db db ∧ ((∃ i, Working o i) ∨ ∃ i, o.system.life = .alive i ∧ i.barrier.mode = .open)
  | .importWrite _ => ∃ i, Restricted o i
  | .arm _ => ∃ i, Restricted o i
  | .begin _ _ _ _ => ∃ i, Working o i
  | .part _ _ => ∃ i, Working o i
  | .complete _ _ _ => ∃ i, Working o i

def Step (o : Object Rows H V) (event : Event Rows) (o' : Object Rows H V) : Prop :=
  Enabled o event ∧ o' = next digest etag o event

def initial (db : Database Rows) : Object Rows H V := ⟨Maintenance.initial, db, none, fun _ => none, 0⟩

end Fabrika.App.Consistent
