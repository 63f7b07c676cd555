/-
  Fabrika.Iam.MemberRoles — the revocation batches of iam/src/repositories/membership.ts, as
  repositories/audit.ts assembles them for either dialect.

  A call reads the clock and builds its batch; the batch runs later, as one serialized step over the
  database (`World.step`). A batch sees the effects of its own earlier statements. On SQLite the
  record of a change is a statement of its own that reads `changes()`; on Postgres a change and its
  record are one statement. The columns a statement neither reads nor writes are left out, and an
  audit row is its id and event.
-/

import Mathlib.Data.List.Pairwise
import Mathlib.Logic.Function.Basic
import Mathlib.Data.List.Nodup

namespace Fabrika.Iam.MemberRoles

/-! ## The tables -/

structure Scope where
  type : String
  value : String
  deriving DecidableEq

structure Grant where
  principalId : String
  app : Option String
  roleKey : Option String
  scope : Option Scope
  expiresAt : Option Nat
  deriving DecidableEq

/-- `expires_at IS NULL OR expires_at > ?`. -/
def Grant.active (now : Nat) (g : Grant) : Bool := g.expiresAt.all (now < ·)

/-- The row of a role in a scope of an app. -/
def Grant.isOf (app roleKey : String) (scope : Scope) (g : Grant) : Bool :=
  g.app = some app && g.roleKey = some roleKey && g.scope = some scope

/-- What `idx_grants_uq_scoped` keeps apart. -/
def Grant.key (g : Grant) : String × Option String × Option Scope × String :=
  (g.principalId, g.roleKey, g.scope, g.app.getD "*")

def Distinct (a b : Grant) : Prop := a.roleKey ≠ none → a.scope ≠ none → a.key ≠ b.key

/-- The table with its unique index. -/
structure Grants where
  rows : List Grant
  unique : rows.Pairwise Distinct

structure AuditRow (ε : Type) where
  id : Nat
  event : ε

structure Database (ε : Type) where
  grants : Grants
  audit : List (AuditRow ε)
  /-- `membership_scopes`. -/
  scopes : List (String × Scope)
  grantRevision : String → Nat
  /-- `changes()` of SQLite: the rows the last write changed. -/
  changes : Nat

variable {ε : Type}

/-! ## Statements -/

/-- The conditions a DELETE of a member's grant carries. -/
inductive Guard
  | always
  /-- Another principal holds the role there. -/
  | another (now : Nat)
  /-- The member does not hold the creator role there. -/
  | creatorGone (creator : String) (now : Nat)
  deriving DecidableEq

/-- `DELETE FROM grants … RETURNING role_key`. -/
structure Delete where
  app : String
  principalId : String
  roleKey : String
  scope : Scope
  guard : Guard
  deriving DecidableEq

def Delete.met (d : Delete) (rows : List Grant) : Bool :=
  match d.guard with
  | .always => true
  | .another now => rows.any fun g => g.isOf d.app d.roleKey d.scope && g.principalId != d.principalId && g.active now
  | .creatorGone creator now =>
    !rows.any fun g => g.isOf d.app creator d.scope && g.principalId = d.principalId && g.active now

def Delete.matched (d : Delete) (rows : List Grant) (g : Grant) : Bool :=
  g.isOf d.app d.roleKey d.scope && g.principalId = d.principalId && d.met rows

def Delete.kept (d : Delete) (grants : Grants) : Grants where
  rows := grants.rows.filter fun g => !d.matched grants.rows g
  unique := grants.unique.filter _

def Delete.returned (d : Delete) (grants : Grants) : List String :=
  (grants.rows.filter (d.matched grants.rows)).map fun _ => d.roleKey

inductive Statement (ε : Type)
  | grantRemoval (principalId : String)
  | insertScope (app : String) (scope : Scope)
  | lockScope (app : String) (scope : Scope)
  | change (d : Delete)
  /-- `INSERT INTO audit_events SELECT … WHERE changes() > 0 AND NOT EXISTS (… WHERE id = ?)`. -/
  | record (id : Nat) (event : ε)
  /-- `WITH c0 AS (…), …, recorded AS (INSERT … WHERE EXISTS … OR …) SELECT * FROM` the last change. -/
  | changesRecorded (changes : List Delete) (id : Nat) (event : ε)

/-- The database behind a statement, and the rows it returns. -/
def exec (db : Database ε) : Statement ε → Database ε × List String
  | .grantRemoval principalId =>
    ({ db with grantRevision := Function.update db.grantRevision principalId (db.grantRevision principalId + 1), changes := 1 },
      [])
  | .insertScope app scope =>
    if db.scopes.contains (app, scope) then ({ db with changes := 0 }, [])
    else ({ db with scopes := db.scopes ++ [(app, scope)], changes := 1 }, [])
  | .lockScope app scope => ({ db with changes := (db.scopes.filter (· = (app, scope))).length }, [])
  | .change d =>
    ({ db with grants := d.kept db.grants, changes := (d.returned db.grants).length }, d.returned db.grants)
  | .record id event =>
    if 0 < db.changes ∧ ¬ db.audit.any (·.id = id) then ({ db with audit := db.audit ++ [⟨id, event⟩], changes := 1 }, [])
    else ({ db with changes := 0 }, [])
  | .changesRecorded changes id event =>
    -- The changes of one statement all read the table as it was.
    let returned := changes.map fun d => d.returned db.grants
    let rows : Grants :=
      { rows := db.grants.rows.filter fun g => changes.all fun d => !d.matched db.grants.rows g
        unique := db.grants.unique.filter _ }
    let audit := if returned.any (· ≠ []) then db.audit ++ [⟨id, event⟩] else db.audit
    ({ db with grants := rows, audit }, returned.getLastD [])

/-- A batch: one statement after the other, with the rows each returned. -/
def batch (db : Database ε) : List (Statement ε) → Database ε × List (List String)
  | [] => (db, [])
  | statement :: rest =>
    let first := exec db statement
    let later := batch first.1 rest
    (later.1, first.2 :: later.2)

/-! ## Audited changes -/

inductive Dialect
  | sqlite
  | postgres
  deriving DecidableEq

/-- The statements, and how far behind the first one the last change's rows are. -/
structure AuditedChange (ε : Type) where
  statements : List (Statement ε)
  last : Nat

/-- The rows the last change returned in a batch whose statements start at `offset`. -/
def AuditedChange.rows (change : AuditedChange ε) (results : List (List String)) (offset : Nat) : List String :=
  results.getD (offset + change.last) []

/-- `AuditWriter.changed` with an event; `id` is the record's own. -/
def changed (dialect : Dialect) (changes : List Delete) (id : Nat) (event : ε) : AuditedChange ε :=
  match dialect with
  | .postgres => ⟨[.changesRecorded changes id event], 0⟩
  | .sqlite => ⟨changes.flatMap fun d => [.change d, .record id event], (changes.length - 1) * 2⟩

/-! ## The repository -/

def deleteCreatorChange (app principalId roleKey : String) (scope : Scope) (now : Nat) : Delete :=
  ⟨app, principalId, roleKey, scope, .another now⟩

def scopeLockStatements (app : String) (scope : Scope) : List (Statement ε) := [.insertScope app scope, .lockScope app scope]

/-- A batch before it runs: its statements, and what its results answer. -/
structure Batch (ε : Type) where
  statements : List (Statement ε)
  answer : List (List String) → List String

/-- Its answer is whether the last statement returned a row. -/
def deleteCreatorGrantUnlessLast (app principalId roleKey : String) (scope : Scope) (now : Nat) : Batch ε where
  statements := [.grantRemoval principalId] ++ scopeLockStatements app scope ++
    [.change (deleteCreatorChange app principalId roleKey scope now)]
  answer results := results.getD 3 []

structure RevokeInput where
  app : String
  principalId : String
  scope : Scope
  roles : List String
  creatorRole : Option String
  deriving DecidableEq

/-- The creator role, where the input names it. -/
def RevokeInput.creator (input : RevokeInput) : Option String := input.creatorRole.filter fun role => input.roles.contains role

/-- The DELETEs in their order, the creator's first. -/
def RevokeInput.deletes (input : RevokeInput) (now : Nat) : List Delete :=
  (input.creator.toList.map fun creator => deleteCreatorChange input.app input.principalId creator input.scope now) ++
    (input.roles.filter fun role => some role ≠ input.creator).map fun role =>
      ⟨input.app, input.principalId, role, input.scope,
        match input.creator with
        | none => .always
        | some creator => .creatorGone creator now⟩

/-- Each DELETE with its record; the ids are drawn one after the other. -/
def groups (dialect : Dialect) (audit : String → ε) (id : Nat) : List Delete → List (AuditedChange ε)
  | [] => []
  | d :: rest => changed dialect [d] id (audit d.roleKey) :: groups dialect audit (id + 1) rest

/-- The loop over the groups with its running offset. -/
def removed (results : List (List String)) (offset : Nat) : List (AuditedChange ε) → List String
  | [] => []
  | group :: rest => group.rows results offset ++ removed results (offset + group.statements.length) rest

def revokeMemberRoles (dialect : Dialect) (input : RevokeInput) (audit : String → ε) (now id : Nat) : Batch ε where
  statements := ([.grantRemoval input.principalId] ++ scopeLockStatements input.app input.scope) ++
    (groups dialect audit id (input.deletes now)).flatMap (·.statements)
  answer results := removed results 3 (groups dialect audit id (input.deletes now))

/-! ## Giving a role -/

/-- `DO UPDATE … WHERE grants.expires_at IS NOT NULL AND grants.expires_at <= ?`. -/
def renewed (g : Grant) (now : Nat) (held : Grant) : Grant :=
  if held.key = g.key ∧ held.active now = false then { held with expiresAt := g.expiresAt } else held

theorem renewed_key (g : Grant) (now : Nat) (held : Grant) :
    (renewed g now held).key = held.key ∧ (renewed g now held).roleKey = held.roleKey ∧
      (renewed g now held).scope = held.scope := by
  unfold renewed
  split
  · exact ⟨rfl, rfl, rfl⟩
  · exact ⟨rfl, rfl, rfl⟩

/-- `grantMembershipRole`: inserts, or renews a grant that has expired; a held one stays. -/
def grantMembershipRole (grants : Grants) (g : Grant) (now : Nat) : Grants :=
  if h : ∃ held ∈ grants.rows, held.key = g.key then
    { rows := grants.rows.map (renewed g now)
      unique := by
        refine List.pairwise_map.mpr (grants.unique.imp ?_)
        intro a b hab
        unfold Distinct
        rw [(renewed_key g now a).1, (renewed_key g now b).1, (renewed_key g now a).2.1, (renewed_key g now a).2.2]
        exact hab }
  else
    { rows := grants.rows ++ [g]
      unique := by
        refine List.pairwise_append.mpr ⟨grants.unique, List.pairwise_singleton _ _, ?_⟩
        intro a ha b hb _ _ e
        exact h ⟨a, ha, by rw [e, List.mem_singleton.mp hb]⟩ }

/-! ## Runs -/

/-- A call behind its clock reading, waiting for its batch to run. -/
inductive Call (ε : Type)
  | deleteCreator (app principalId roleKey : String) (scope : Scope) (now : Nat)
  | revoke (input : RevokeInput) (audit : String → ε) (now id : Nat)

def Call.now : Call ε → Nat
  | .deleteCreator _ _ _ _ now => now
  | .revoke _ _ now _ => now

def Call.batch (dialect : Dialect) : Call ε → Batch ε
  | .deleteCreator app principalId roleKey scope now => deleteCreatorGrantUnlessLast app principalId roleKey scope now
  | .revoke input audit now id => revokeMemberRoles dialect input audit now id

structure World (ε : Type) where
  db : Database ε
  clock : Nat
  /-- Ids below are drawn. -/
  nextId : Nat
  calls : List (Call ε)

inductive Event (ε : Type)
  | tick (seconds : Nat)
  | deleteCreator (app principalId roleKey : String) (scope : Scope)
  | revoke (app principalId : String) (scope : Scope) (roles : List String) (audit : String → ε)
  /-- The batch of the n-th waiting call runs. -/
  | runs (n : Nat)
  /-- A grant given or renewed by a statement bound `late` seconds ago. -/
  | give (g : Grant) (late : Nat)

variable (dialect : Dialect) (creatorRole : String → String → Option String)

/-- `revokeMember` passes the creator role its dimension declares. -/
def World.step (w : World ε) : Event ε → World ε
  | .tick seconds => { w with clock := w.clock + seconds }
  | .deleteCreator app principalId roleKey scope =>
    { w with calls := w.calls ++ [.deleteCreator app principalId roleKey scope w.clock] }
  | .revoke app principalId scope roles audit =>
    let input : RevokeInput := ⟨app, principalId, scope, roles, creatorRole app scope.type⟩
    { w with
      calls := w.calls ++ [.revoke input audit w.clock w.nextId]
      nextId := w.nextId + (input.deletes w.clock).length }
  | .runs n =>
    match w.calls[n]? with
    | none => w
    | some call => { w with db := (MemberRoles.batch w.db (call.batch dialect).statements).1, calls := w.calls.eraseIdx n }
  | .give g late => { w with db := { w.db with grants := grantMembershipRole w.db.grants g (w.clock - late), changes := 1 } }

def World.after (w : World ε) (events : List (Event ε)) : World ε := events.foldl (World.step dialect creatorRole) w

/-- Any grants, before any call. -/
def World.start (grants : Grants) (clock : Nat) : World ε := ⟨⟨grants, [], [], fun _ => 0, 0⟩, clock, 0, []⟩

/-- What the batch of a call answers when it runs. -/
def World.answer (w : World ε) (call : Call ε) : List String :=
  (call.batch dialect).answer (MemberRoles.batch w.db (call.batch dialect).statements).2

end Fabrika.Iam.MemberRoles
