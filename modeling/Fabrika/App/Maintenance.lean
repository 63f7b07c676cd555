/-
  Fabrika.App.Maintenance — the maintenance barrier of an application object
  (app/cloudflare/maintenance.ts) and the system it is part of.

  A function of the barrier runs without interruption up to its next `await`; what is between
  two awaits is one definition here, and `Stage` is where the turn waits. R2 is outside: `history`
  is every state its object has held, `etag` the version it gives the n-th of them. A put takes
  effect when R2 gets to it, which may be before its answer is lost, after the caller gave up on
  it, or after the instance that sent it is gone (`late`). One instance is alive at a time.
-/

import Fabrika.AuthCore.OpsState
import Mathlib.Data.List.Basic

namespace Fabrika.App.Maintenance

open Fabrika.AuthCore.OpsState

/-- The state R2 holds, and its version: the etag a conditional put names. -/
structure StoredMaintenance (V : Type) where
  state : OpsPublishedState
  version : V
  deriving DecidableEq

/-- Since which generation the object has written nothing, as of the published `generation`. -/
structure FrozenRecord where
  generation : Nat
  since : Nat
  deriving DecidableEq

inductive InvocationKind
  | read
  | write
  | webhook
  | kick
  | job
  | frameworkJob
  deriving DecidableEq

/-- `ADMITTED`. -/
def admitted : OpsMode → InvocationKind → Bool
  | .open, _ => true
  | .readOnly, .read => true
  | _, _ => false

/-- `STOPPABLE`: the kinds a drain aborts at once. -/
def stoppable : InvocationKind → Bool
  | .kick | .job | .frameworkJob => true
  | _ => false

/-- How restrictive a mode is. -/
def rank : OpsMode → Nat
  | .open => 0
  | .readOnly => 1
  | .closed => 2
  | .inspect => 3

structure OpsStateAck where
  generation : Nat
  mode : OpsMode
  stillRunning : Nat
  deriving DecidableEq

inductive TransitionResult
  | acknowledged (ack : OpsStateAck)
  | stale (published : Option OpsPublishedState)
  | failed
  | frozen
  deriving DecidableEq

/-- One unit the drain waits for. -/
structure BarrierUnit where
  id : Nat
  kind : InvocationKind
  deriving DecidableEq

/-- An admitted invocation's abort controller, until it is released. -/
structure Stop where
  id : Nat
  kind : InvocationKind
  aborted : Bool
  deriving DecidableEq

/-- The instance's memory. -/
structure Barrier (V : Type) where
  mode : OpsMode
  generation : Option Nat
  /-- What R2 holds as far as this instance knows. -/
  stored : Option OpsPublishedState
  version : Option V
  frozenSince : Option Nat
  units : List BarrierUnit
  stops : List Stop
  /-- The identity of the next unit. -/
  fresh : Nat
  deriving DecidableEq

/-- An invocation's event: what it captured when it was admitted. -/
structure BarrierEvent where
  generation : Option Nat
  mode : OpsMode
  deriving DecidableEq

/-- The handle an admitted invocation holds. -/
structure Admission where
  id : Nat
  kind : InvocationKind
  released : Bool
  deriving DecidableEq

variable {V : Type} [DecidableEq V]

/-! ## The barrier -/

/-- None while `open`; the record's stretch when it was written at the published generation. -/
def frozenOnLoad (state : OpsPublishedState) (frozen : Option FrozenRecord) : Option Nat :=
  if state.mode = .open then none
  else match frozen with
    | some record => if record.generation = state.generation ∧ record.since ≤ state.generation then some record.since
      else some state.generation
    | none => some state.generation

/-- The constructor: an absent state is `open`. -/
def load (stored : Option (StoredMaintenance V)) (frozen : Option FrozenRecord) : Barrier V where
  mode := (stored.map fun found => found.state.mode).getD .open
  generation := stored.map fun found => found.state.generation
  stored := stored.map fun found => found.state
  version := stored.map fun found => found.version
  frozenSince := stored.bind fun found => frozenOnLoad found.state frozen
  units := []
  stops := []
  fresh := 0

/-- What the instance's next transition is judged against. -/
def Barrier.current (b : Barrier V) : Option OpsPublishedState := b.generation.map fun generation => ⟨generation, b.mode⟩

def Barrier.isPublished (b : Barrier V) : Bool :=
  b.stored.any fun state => decide (some state.generation = b.generation ∧ state.mode = b.mode)

def Barrier.event (b : Barrier V) : BarrierEvent := ⟨b.generation, b.mode⟩

def Barrier.writable (b : Barrier V) (generation : Option Nat) (mode : OpsMode) : Bool :=
  decide (mode = .open ∧ b.mode = .open ∧ b.generation = generation)

def Barrier.admits (b : Barrier V) (kind : InvocationKind) (generation : Option Nat) : Option (Barrier V × Admission) :=
  if admitted b.mode kind = true ∧ b.generation = generation then
    some ({ b with units := b.units ++ [⟨b.fresh, kind⟩], stops := b.stops ++ [⟨b.fresh, kind, false⟩], fresh := b.fresh + 1 },
      ⟨b.fresh, kind, false⟩)
  else none

def Barrier.leave (b : Barrier V) (id : Nat) : Barrier V := { b with units := b.units.filter fun unit => decide (unit.id ≠ id) }

def Barrier.track (b : Barrier V) (kind : InvocationKind) : Barrier V × BarrierUnit :=
  ({ b with units := b.units ++ [⟨b.fresh, kind⟩], fresh := b.fresh + 1 }, ⟨b.fresh, kind⟩)

def Barrier.release (b : Barrier V) (id : Nat) : Barrier V :=
  { b with stops := b.stops.filter fun stop => decide (stop.id ≠ id) }.leave id

/-- Where a transition goes once it is taken up. -/
inductive TakenUp (V : Type)
  | answer (result : TransitionResult)
  | publish (b : Barrier V)
  | drain

/-- A tightening transition switches memory here, before any await. -/
def Barrier.takeUp (b : Barrier V) (request : OpsPublishedState) (frozen : Bool) : TakenUp V :=
  if opsTransitionRefused b.current request then .answer (.stale b.stored)
  else if b.mode = .inspect ∧ request.mode ≠ .inspect ∧ frozen = true then .answer .frozen
  else
    let retry := b.current.any fun current => decide (current.generation = request.generation)
    if retry = false ∨ b.isPublished = false then
      .publish (if rank request.mode > rank b.mode then { b with mode := request.mode, generation := some request.generation }
        else b)
    else .drain

def Barrier.published (b : Barrier V) (request : OpsPublishedState) (version : V) : Barrier V :=
  { b with stored := some request, version := some version, mode := request.mode, generation := some request.generation }

/-- What a conflict's read leaves in memory, whatever follows. -/
def Barrier.reread (b : Barrier V) (found : Option (StoredMaintenance V)) : Barrier V :=
  { b with version := found.map fun found => found.version, stored := found.map fun found => found.state }

/-- Another state is published elsewhere: its stretch starts at it. -/
def Barrier.adopt (b : Barrier V) (state : OpsPublishedState) : Barrier V :=
  { b with mode := state.mode, generation := some state.generation
           frozenSince := if state.mode = .open then none else some state.generation }

/-- The stretch after `request` is published, and the record of it to put. -/
def Barrier.froze (b : Barrier V) (request : OpsPublishedState) : Barrier V × Option FrozenRecord :=
  if request.mode = .open then ({ b with frozenSince := none }, none)
  else
    let since := b.frozenSince.getD request.generation
    ({ b with frozenSince := some since }, some ⟨request.generation, since⟩)

/-- The drain stops every run the mode forbids. -/
def Barrier.abort (b : Barrier V) : Barrier V :=
  { b with stops := b.stops.map fun stop => if stoppable stop.kind &&
    !admitted b.mode stop.kind then { stop with aborted := true } else stop }

/-- The units the drain waits for. -/
def Barrier.running (b : Barrier V) (mode : OpsMode) : Nat := (b.units.filter fun unit => !admitted mode unit.kind).length

/-- The record a restricted write puts first; nothing when the stretch already starts here. -/
def Barrier.restrictedWrite (b : Barrier V) : Option (Barrier V × FrozenRecord) :=
  if b.mode = .open then none
  else match b.generation with
    | none => none
    | some generation =>
      if b.frozenSince = some generation then none
      else some ({ b with frozenSince := some generation }, ⟨generation, generation⟩)

/-! ## R2 -/

variable (etag : Nat → OpsPublishedState → V)

def holds (history : List OpsPublishedState) : Option (StoredMaintenance V) :=
  history.getLast?.map fun state => ⟨state, etag history.length state⟩

/-- The put's condition: R2 still holds `version`, or nothing. -/
def matches' (history : List OpsPublishedState) (version : Option V) : Prop :=
  (holds etag history).map (fun found => found.version) = version

instance (history : List OpsPublishedState) (version : Option V) : Decidable (matches' etag history version) :=
  inferInstanceAs (Decidable (_ = _))

/-- The conditional put: what R2 holds then, and its answer. -/
def put (history : List OpsPublishedState) (request : OpsPublishedState) (version : Option V) :
    List OpsPublishedState × Option V :=
  if matches' etag history version then (history ++ [request], some (etag (history.length + 1) request)) else (history, none)

inductive Put (V : Type)
  | state (request : OpsPublishedState) (version : Option V)
  | frozen (record : FrozenRecord)
  deriving DecidableEq

/-! ## One object -/

def putAttempts : Nat := 3

/-- Where the turn waits. -/
inductive Stage (V : Type)
  | putting (request : OpsPublishedState) (attempt : Nat)
  | answering (request : OpsPublishedState) (attempt : Nat) (version : Option V)
  | reading (request : OpsPublishedState) (attempt : Nat)
  | found (request : OpsPublishedState) (attempt : Nat) (stored : Option (StoredMaintenance V))
  | freezing (request : OpsPublishedState) (record : FrozenRecord) (landed : Bool)
  | draining (request : OpsPublishedState) (mode : OpsMode)
  /-- A data step or a migration; `cleared` once `restrictedWrite` returned. -/
  | working (cleared : Bool)
  | marking (record : FrozenRecord) (landed : Bool)
  deriving DecidableEq

structure Instance (V : Type) where
  barrier : Barrier V
  turn : Option (Stage V)
  captured : List BarrierEvent
  admissions : List Admission
  /-- Work handed on and not settled yet. -/
  tracked : List BarrierUnit
  deriving DecidableEq

inductive Life (V : Type)
  | absent
  | loading (found : Option (StoredMaintenance V))
  | alive (i : Instance V)
  deriving DecidableEq

structure System (V : Type) where
  history : List OpsPublishedState
  frozen : Option FrozenRecord
  /-- Puts that nobody waits for any more. -/
  late : List (Put V)
  life : Life V
  results : List (OpsPublishedState × TransitionResult)
  deriving DecidableEq

inductive Event
  | load
  | loaded
  | evict
  | takeUp (request : OpsPublishedState) (frozen : Bool)
  | putLands
  | putAnswers
  | putFails
  | readLands
  | readAnswers
  | readFails
  | frozenLands
  | frozenAnswers
  | frozenFails
  | drained
  | late (index : Nat)
  | capture
  | admission (event : BarrierEvent) (kind : InvocationKind)
  | track (admission : Admission)
  | settle (unit : BarrierUnit)
  | release (admission : Admission)
  | work (generation : Nat)
  | restrictedWrite
  | done
  deriving DecidableEq

def System.withInstance (s : System V) (i : Instance V) : System V := { s with life := .alive i }

/-- The turn's transition answers. -/
def System.answer (s : System V) (i : Instance V) (request : OpsPublishedState) (result : TransitionResult) : System V :=
  { s with life := .alive { i with turn := none }, results := s.results ++ [(request, result)] }

def Instance.startDrain (i : Instance V) (b : Barrier V) (request : OpsPublishedState) : Instance V :=
  { i with barrier := b.abort, turn := some (.draining request b.mode) }

/-- The put the turn has sent and R2 has not got to. -/
def Instance.pending (i : Instance V) : List (Put V) :=
  match i.turn with
  | some (.putting request _) => [.state request i.barrier.version]
  | some (.freezing _ record false) => [.frozen record]
  | some (.marking record false) => [.frozen record]
  | _ => []

def takeUp (s : System V) (i : Instance V) (request : OpsPublishedState) (frozen : Bool) : System V :=
  match i.barrier.takeUp request frozen with
  | .answer result => s.answer i request result
  | .publish b => s.withInstance { i with barrier := b, turn := some (.putting request 0) }
  | .drain => s.withInstance (i.startDrain i.barrier request)

def putAnswers (s : System V) (i : Instance V) (request : OpsPublishedState) (attempt : Nat) : Option V → System V
  | none => s.withInstance { i with turn := some (.reading request attempt) }
  | some version =>
    let froze := (i.barrier.published request version).froze request
    match froze.2 with
    | none => s.withInstance (i.startDrain froze.1 request)
    | some record => s.withInstance { i with barrier := froze.1, turn := some (.freezing request record false) }

def readAnswers (s : System V) (i : Instance V) (request : OpsPublishedState) (attempt : Nat)
    (found : Option (StoredMaintenance V)) :
    System V :=
  let i := { i with barrier := i.barrier.reread found }
  match found with
  | some found =>
    if opsTransitionRefused (some found.state) request then
      s.answer { i with barrier := i.barrier.adopt found.state } request (.stale (some found.state))
    else if attempt + 1 < putAttempts then s.withInstance { i with turn := some (.putting request (attempt + 1)) }
    else s.answer i request .failed
  | none =>
    if attempt + 1 < putAttempts then s.withInstance { i with turn := some (.putting request (attempt + 1)) }
    else s.answer i request .failed

/-- What the turn does when the answer it waits for is here, or R2 gets to its put or read. -/
def advance (s : System V) (i : Instance V) (stage : Stage V) : Event → System V
  | .putLands => match stage with
    | .putting request attempt =>
      let answer := put etag s.history request i.barrier.version
      { s with history := answer.1 }.withInstance { i with turn := some (.answering request attempt answer.2) }
    | _ => s
  | .putAnswers => match stage with
    | .answering request attempt version => putAnswers s i request attempt version
    | _ => s
  | .putFails => match stage with
    | .putting request _ => { s with late := s.late ++ i.pending }.answer i request .failed
    | .answering request _ _ => s.answer i request .failed
    | _ => s
  | .readLands => match stage with
    | .reading request attempt => s.withInstance { i with turn := some (.found request attempt (holds etag s.history)) }
    | _ => s
  | .readAnswers => match stage with
    | .found request attempt found => readAnswers s i request attempt found
    | _ => s
  | .readFails => match stage with
    | .reading request _ => s.answer i request .failed
    | .found request _ _ => s.answer i request .failed
    | _ => s
  | .frozenLands => match stage with
    | .freezing request record false =>
      { s with frozen := some record }.withInstance { i with turn := some (.freezing request record true) }
    | .marking record false => { s with frozen := some record }.withInstance { i with turn := some (.marking record true) }
    | _ => s
  | .frozenAnswers => match stage with
    | .freezing request _ true => s.withInstance (i.startDrain i.barrier request)
    | .marking _ true => s.withInstance { i with turn := some (.working true) }
    | _ => s
  | .frozenFails => match stage with
    | .freezing request _ _ => { s with late := s.late ++ i.pending }.withInstance (i.startDrain i.barrier request)
    | .marking _ _ => { s with late := s.late ++ i.pending }.withInstance { i with turn := none }
    | _ => s
  | .drained => match stage with
    | .draining request mode => s.answer i request (.acknowledged ⟨request.generation, request.mode, i.barrier.running mode⟩)
    | _ => s
  | .restrictedWrite => match stage with
    | .working false => match i.barrier.restrictedWrite with
      | none => s.withInstance { i with turn := some (.working true) }
      | some (b, record) => s.withInstance { i with barrier := b, turn := some (.marking record false) }
    | _ => s
  | .done => match stage with
    | .working _ => s.withInstance { i with turn := none }
    | _ => s
  | _ => s

/-- What the instance does outside its turn, or when its turn is free. -/
def react (s : System V) (i : Instance V) : Event → System V
  | .takeUp request frozen => if i.turn = none then takeUp s i request frozen else s
  | .work generation =>
    if i.turn = none ∧ i.barrier.isPublished = true ∧ i.barrier.generation = some generation then
      s.withInstance { i with turn := some (.working false) }
    else s
  | .capture => s.withInstance { i with captured := i.captured ++ [i.barrier.event] }
  | .admission event kind =>
    if event ∈ i.captured then
      match i.barrier.admits kind event.generation with
      | some (b, admission) => s.withInstance { i with barrier := b, admissions := i.admissions ++ [admission] }
      | none => s
    else s
  | .track admission =>
    if admission ∈ i.admissions then
      s.withInstance { i with barrier := (i.barrier.track admission.kind).1, tracked := i.tracked ++
        [(i.barrier.track admission.kind).2] }
    else s
  | .settle unit =>
    if unit ∈ i.tracked then s.withInstance
      { i with barrier := i.barrier.leave unit.id, tracked := i.tracked.filter fun other => decide (other ≠ unit) }
    else s
  | .release admission =>
    if admission ∈ i.admissions ∧ admission.released = false then
      s.withInstance { i with barrier := i.barrier.release admission.id
                              admissions := i.admissions.map fun other =>
                              if other.id = admission.id then { other with released := true } else other }
    else s
  | event => match i.turn with
    | some stage => advance etag s i stage event
    | none => s

/-- R2 gets to a put nobody waits for. -/
def landLate (s : System V) (index : Nat) : System V :=
  match s.late[index]? with
  | some (.state request version) => { s with history := (put etag s.history request version).1, late := s.late.eraseIdx index }
  | some (.frozen record) => { s with frozen := some record, late := s.late.eraseIdx index }
  | none => s

def evict (s : System V) : System V :=
  match s.life with
  | .alive i => { s with late := s.late ++ i.pending, life := .absent }
  | _ => { s with life := .absent }

def next (s : System V) (event : Event) : System V :=
  match event, s.life with
  | .late index, _ => landLate etag s index
  | .evict, _ => evict s
  | .load, .absent => { s with life := .loading (holds etag s.history) }
  | .loaded, .loading found =>
    let frozen := if found.all (fun found => decide (found.state.mode = .open)) then none else s.frozen
    s.withInstance ⟨load found frozen, none, [], [], []⟩
  | event, .alive i => react etag s i event
  | _, _ => s

def initial : System V := ⟨[], none, [], .absent, []⟩

def Step (s : System V) (event : Event) (s' : System V) : Prop := s' = next etag s event

end Fabrika.App.Maintenance
