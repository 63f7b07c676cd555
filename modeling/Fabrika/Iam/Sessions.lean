/-
  Fabrika.Iam.Sessions — logins, the app sessions derived from them, and the terminals some are
  asserted on: iam/src/repositories/sessions.ts, handoff.ts, auth/sessions.ts, identification.ts and
  the session mint of tokens.ts.

  Each statement and each batch is one step; a use case that reads, awaits and writes is a job whose
  next step may come at any later time, or never. A statement's `now` is the clock reading bound to
  it. A session's token hash is unique, so its id stands for it: both lookups apply the same rule. Ids
  are fresh. What a use case checks of principals, methods, verifiers and return URLs only refuses,
  so a step that needs them passed takes that as given.
-/

import Mathlib.Data.List.Basic
import Mathlib.Data.List.Nodup
import Mathlib.Logic.Function.Basic

namespace Fabrika.Iam.Sessions

/-! ## Rows -/

/-- The terminal a login was asserted on, the application that asserted it, and the terminal's generation then. -/
structure SessionTerminal where
  terminalId : Nat
  assertedBy : String
  generation : Nat
  deriving DecidableEq

structure Session where
  principalId : String
  expiresAt : Nat
  revoked : Bool
  /-- None is an IAM session; an app-bound child names its app. -/
  app : Option String
  parent : Option Nat
  terminal : Option SessionTerminal
  deriving DecidableEq

structure Terminal where
  revoked : Bool
  generation : Nat
  deriving DecidableEq

structure AuthCode where
  app : String
  parent : Nat
  expiresAt : Nat
  consumed : Bool
  deriving DecidableEq

structure Identification where
  terminalId : Nat
  app : String
  generation : Nat
  expiresAt : Nat
  consumed : Bool
  sessionId : Option Nat
  completed : Bool
  deriving DecidableEq

abbrev Table (α : Type) := Nat → Option α

/-! ## Validity -/

/-- `TERMINAL_ENROLLED`: on no terminal, or on one that is enrolled and in the generation. -/
def terminalEnrolled (terminals : Table Terminal) : Option SessionTerminal → Bool
  | none => true
  | some t => (terminals t.terminalId).any fun row => !row.revoked && row.generation == t.generation

/-- `getActiveSessionByHash` and `getActiveSessionById`. -/
def getActiveSession (sessions : Table Session) (terminals : Table Terminal) (id now : Nat) : Option Session :=
  (sessions id).filter fun s =>
    let parent := s.parent.bind sessions
    !s.revoked && now < s.expiresAt
      && (s.parent.isNone || parent.any fun p => !p.revoked && now < p.expiresAt)
      && terminalEnrolled terminals (s.terminal <|> parent.bind (·.terminal))

/-! ## Jobs and runs -/

inductive Job
  /-- A handoff behind its read of the login, before the code is issued. -/
  | handoff (sessionId : Nat) (app : String)
  /-- A completed identification, before its login is read. -/
  | completing (sessionId : Nat) (app : String)
  /-- An exchange that consumed its code. -/
  | consumed (code : Nat) (row : AuthCode)
  /-- An exchange behind its read of the login. -/
  | exchanging (code : Nat) (row : AuthCode) (parent : Session)
  /-- A mint behind its lookup, `read` steps into the run. -/
  | minting (sessionId : Nat) (session : Session) (app : String) (read : Nat)
  deriving DecidableEq

/-- A token signed for an app from a session row. -/
structure Token where
  sessionId : Nat
  session : Session
  app : String
  read : Nat
  deriving DecidableEq

structure World where
  sessions : Table Session
  codes : Table AuthCode
  terminals : Table Terminal
  identifications : Table Identification
  /-- Ids below are used. -/
  nextId : Nat
  jobs : List Job
  /-- The app and login each code was issued for, the codes and the sessions they yielded, the tokens
      signed, and the steps taken. -/
  issued : Table (String × Nat)
  yielded : List (Nat × Nat)
  tokens : List Token
  steps : Nat

inductive Event
  /-- `issueSession`, with the app its handoff continues to. -/
  | login (principalId : String) (expiresAt : Nat) (handoff : Option String)
  /-- `currentSession` finds a login for a handoff or an account choice. -/
  | chooses (sessionId : Nat) (app : String) (now : Nat)
  | issueAuthCode (n expiresAt : Nat)
  | consumeCode (code : Nat) (app : String) (now : Nat)
  | readParent (n now : Nat)
  | createChild (n : Nat)
  /-- A logout, or an operator's revocation of one session. -/
  | revokeSession (sessionId : Nat)
  | revokeSessionsForPrincipal (principalId : String)
  | enrolTerminal
  | revokeTerminal (terminalId : Nat)
  | releaseTerminal (terminalId : Nat)
  | createIdentification (terminalId : Nat) (app : String) (expiresAt : Nat)
  | assertIdentity (identification : Nat) (principalId : String) (now expiresAt completeBy : Nat)
  | completeIdentification (identification now : Nat)
  | readLogin (n now : Nat)
  | lookUp (sessionId : Nat) (app : String) (now : Nat)
  | sign (n : Nat)
  | pruneSessions (now : Nat)
  | pruneCodes (now : Nat)
  deriving DecidableEq

/-- `UPDATE sessions SET revoked_at = ? WHERE … AND revoked_at IS NULL`. -/
def revokeWhere (sessions : Table Session) (p : Nat → Session → Bool) : Table Session := fun id =>
  (sessions id).map fun s => if p id s then { s with revoked := true } else s

/-- `DELETE FROM sessions …`, with its children. -/
def pruneSessions (sessions : Table Session) (now : Nat) : Table Session :=
  let gone (s : Session) : Bool := s.expiresAt < now || s.revoked
  fun id => (sessions id).filter fun s => !gone s && !(s.parent.bind sessions).any gone

def World.session (w : World) (id now : Nat) : Option Session := getActiveSession w.sessions w.terminals id now

/-- The job at `n` makes way for another, or for none. -/
def World.replaceJob (w : World) (n : Nat) : Option Job → World
  | none => { w with jobs := w.jobs.eraseIdx n }
  | some job => { w with jobs := w.jobs.set n job }

def World.insertSession (w : World) (s : Session) : World :=
  { w with sessions := Function.update w.sessions w.nextId (some s), nextId := w.nextId + 1 }

def World.act (w : World) : Event → World
  | .login principalId expiresAt handoff =>
    let opened := w.insertSession ⟨principalId, expiresAt, false, none, none, none⟩
    { opened with jobs := opened.jobs ++ handoff.toList.map fun app => .handoff w.nextId app }
  | .chooses sessionId app now =>
    match w.session sessionId now with
    -- A child session cannot father another.
    | some s => if s.app.isNone then { w with jobs := w.jobs ++ [.handoff sessionId app] } else w
    | none => w
  | .issueAuthCode n expiresAt =>
    match w.jobs[n]? with
    | some (.handoff sessionId app) =>
      -- The code references the login's row.
      if (w.sessions sessionId).isSome then
        { w.replaceJob n none with
          codes := Function.update w.codes w.nextId (some ⟨app, sessionId, expiresAt, false⟩)
          issued := Function.update w.issued w.nextId (some (app, sessionId))
          nextId := w.nextId + 1 }
      else w.replaceJob n none
    | _ => w
  | .consumeCode code app now =>
    match w.codes code with
    | some row =>
      if !row.consumed && now < row.expiresAt then
        let spent := { w with codes := Function.update w.codes code (some { row with consumed := true }) }
        if row.app = app then { spent with jobs := w.jobs ++ [.consumed code { row with consumed := true }] } else spent
      else w
    | none => w
  | .readParent n now =>
    match w.jobs[n]? with
    | some (.consumed code row) =>
      match w.session row.parent now with
      | some parent =>
        -- A login asserted at a terminal reaches only the application that asserted it.
        if parent.terminal.all (·.assertedBy = row.app) then w.replaceJob n (some (.exchanging code row parent))
          else w.replaceJob n none
      | none => w.replaceJob n none
    | _ => w
  | .createChild n =>
    match w.jobs[n]? with
    | some (.exchanging code row parent) =>
      if (w.sessions row.parent).isSome then
        { (w.replaceJob n none).insertSession
            ⟨parent.principalId, parent.expiresAt, false, some row.app, some row.parent, parent.terminal⟩ with
          yielded := w.yielded ++ [(code, w.nextId)] }
      else w.replaceJob n none
    | _ => w
  | .revokeSession sessionId => { w with sessions := revokeWhere w.sessions fun id _ => id = sessionId }
  | .revokeSessionsForPrincipal principalId =>
    { w with sessions := revokeWhere w.sessions fun _ s => s.principalId = principalId }
  | .enrolTerminal => { w with terminals := Function.update w.terminals w.nextId (some ⟨false, 0⟩), nextId := w.nextId + 1 }
  | .revokeTerminal terminalId =>
    { w with
      terminals := Function.update w.terminals terminalId ((w.terminals terminalId).map fun t => { t with revoked := true })
      identifications := fun id => (w.identifications id).map fun i =>
      if i.terminalId = terminalId then { i with consumed := true } else i
      sessions := revokeWhere w.sessions fun _ s => s.terminal.any (·.terminalId = terminalId) }
  | .releaseTerminal terminalId =>
    { w with
      terminals := Function.update w.terminals terminalId ((w.terminals terminalId).map fun t =>
        { t with generation := t.generation + 1 })
      identifications := fun id => (w.identifications id).map fun i =>
      if i.terminalId = terminalId then { i with consumed := true } else i
      sessions := revokeWhere w.sessions fun _ s => s.terminal.any (·.terminalId = terminalId) }
  | .createIdentification terminalId app expiresAt =>
    match w.terminals terminalId with
    | some t =>
      { w with
        identifications := Function.update w.identifications w.nextId (some ⟨terminalId, app, t.generation, expiresAt, false,
          none, false⟩)
        nextId := w.nextId + 1 }
    | none => w
  | .assertIdentity identification principalId now expiresAt completeBy =>
    match w.identifications identification with
    | some i =>
      -- One batch: the login is inserted only where the identification was consumed for it.
      if !i.consumed && now < i.expiresAt && terminalEnrolled w.terminals (some ⟨i.terminalId, i.app, i.generation⟩) then
        { w.insertSession ⟨principalId, expiresAt, false, none, none, some ⟨i.terminalId, i.app, i.generation⟩⟩ with
          identifications := Function.update w.identifications identification
            (some { i with consumed := true, sessionId := some w.nextId, expiresAt := completeBy }) }
      else w
    | none => w
  | .completeIdentification identification now =>
    match w.identifications identification with
    | some i =>
      match i.sessionId with
      | some sessionId =>
        if !i.completed && now < i.expiresAt then
          { w with
            identifications := Function.update w.identifications identification (some { i with completed := true })
            jobs := w.jobs ++ [.completing sessionId i.app] }
        else w
      | none => w
    | none => w
  | .readLogin n now =>
    match w.jobs[n]? with
    | some (.completing sessionId app) =>
      if (w.session sessionId now).isSome then w.replaceJob n (some (.handoff sessionId app)) else w.replaceJob n none
    | _ => w
  | .lookUp sessionId app now =>
    match w.session sessionId now with
    | some s =>
      if s.app.all (· = app) && s.terminal.all (·.assertedBy = app) then
        { w with jobs := w.jobs ++ [.minting sessionId s app w.steps] }
      else w
    | none => w
  | .sign n =>
    match w.jobs[n]? with
    | some (.minting sessionId s app read) => { w.replaceJob n none with tokens := w.tokens ++ [⟨sessionId, s, app, read⟩] }
    | _ => w
  | .pruneSessions now => { w with sessions := pruneSessions w.sessions now }
  | .pruneCodes now => { w with codes := fun id => (w.codes id).filter fun c => !(c.expiresAt < now || c.consumed) }

def World.step (w : World) (event : Event) : World := { w.act event with steps := w.steps + 1 }

def World.after (w : World) (events : List Event) : World := events.foldl World.step w

def World.start : World := ⟨fun _ => none, fun _ => none, fun _ => none, fun _ => none, 0, [], fun _ => none, [], [], 0⟩

end Fabrika.Iam.Sessions
