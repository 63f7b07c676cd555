/-
  Fabrika.AuthCore.Contract — contract.ts: the compiled form of an application contract, its
  canonical order (contract-canonical.ts), and what is derived from it for an endpoint
  (endpoint-digest.ts, membership.ts).

  Input and output schemas and the wording of e-mails are left out: nothing here reads them.
  An absent optional field is `none`, `false` or an empty list where the readers of the artifact
  treat it so, and an `Option` of a list where they tell the two apart.
-/

import Fabrika.AuthCore.Endpoints
import Fabrika.AuthCore.Requirement
import Fabrika.Lib.Record

namespace Fabrika.AuthCore

open Fabrika.Lib
open Fabrika.AuthCore.Endpoints (EndpointMethod EndpointPattern EndpointPatternTable)

/-! ## Endpoint rows -/

inductive Caller
  | human
  | machine
  | link
  | app (id : String)
  deriving DecidableEq

def Caller.text : Caller → String
  | .human => "human"
  | .machine => "machine"
  | .link => "link"
  | .app id => "app:" ++ id

inductive CredentialedEndpointKind
  | query
  | mutation
  | spa
  | upload
  | download
  deriving DecidableEq

inductive AnonymousEndpointKind
  | health
  | form
  | webhook
  | linkSpa
  | publicSpa
  | «public»
  deriving DecidableEq

inductive EndpointKind
  | credentialed (kind : CredentialedEndpointKind)
  | anonymous (kind : AnonymousEndpointKind)
  deriving DecidableEq

inductive EndpointSourceKind
  | mount
  | exported
  | files
  | challenge
  deriving DecidableEq

structure EndpointSource where
  kind : EndpointSourceKind
  name : String
  deriving DecidableEq

inductive CrossOriginForm
  | environment
  | any
  deriving DecidableEq

inductive EndpointResponse
  | file
  | inlineFile
  deriving DecidableEq

inductive EndpointCache
  | maxAgeSeconds (seconds : Nat)
  | immutable
  deriving DecidableEq

structure BodyAdmission where
  contentTypes : List String
  maxBytes : Option Nat
  deriving DecidableEq

/-- Who reaches a row: the callers and the requirement of a credentialed kind, neither of an
    anonymous one. -/
inductive RowAccess
  | credentialed (kind : CredentialedEndpointKind) (callers : List Caller) (requirement : EndpointRequirement)
  | anonymous (kind : AnonymousEndpointKind)
  deriving DecidableEq

/-- A contract row serves `GET` or `POST`. -/
inductive RowMethod
  | get
  | post
  deriving DecidableEq

def RowMethod.pattern : RowMethod → EndpointMethod
  | .get => .get
  | .post => .post

structure EndpointRow where
  id : String
  source : EndpointSource
  method : RowMethod
  path : String
  access : RowAccess
  admission : Option BodyAdmission
  crossOrigin : Option CrossOriginForm := none
  response : Option EndpointResponse := none
  cache : Option EndpointCache := none
  /-- `authorization: 'forward'`. -/
  forwardsAuthorization : Bool := false
  deriving DecidableEq

instance : EndpointPattern EndpointRow := ⟨EndpointRow.id, fun row => row.method.pattern, EndpointRow.path⟩

namespace EndpointRow

def kind (row : EndpointRow) : EndpointKind :=
  match row.access with
  | .credentialed kind _ _ => .credentialed kind
  | .anonymous kind => .anonymous kind

def callers (row : EndpointRow) : List Caller :=
  match row.access with
  | .credentialed _ callers _ => callers
  | .anonymous _ => []

def requirement (row : EndpointRow) : Option EndpointRequirement :=
  match row.access with
  | .credentialed _ _ requirement => some requirement
  | .anonymous _ => none

end EndpointRow

/-! ## The vocabulary -/

structure Members where
  manage : String
  list : String
  deriving DecidableEq

structure DimensionArtifact where
  /-- `in`: the dimension that contains every value of this one. -/
  container : Option String
  creator : Option String
  members : Option Members
  /-- `directory: 'labels'`. -/
  labels : Bool := false
  deriving DecidableEq

structure Membership where
  scope : String
  assignableBy : List String
  deriving DecidableEq

structure RoleArtifact where
  grants : List String
  member : Option Membership
  external : Bool := false
  deriving DecidableEq

/-! ## Mounts, files, jobs and connectors -/

structure RpcMountArtifact where
  path : String
  callers : List String
  /-- `compatibility: 'backward'`. -/
  backward : Bool := false
  deriving DecidableEq

structure LinkMountArtifact where
  path : String
  spa : String
  dimension : String
  grants : List String
  issuedBy : String
  maxDays : Nat
  deriving DecidableEq

structure SpaMountArtifact where
  path : String
  dir : String
  «public» : List String := []
  deriving DecidableEq

structure FormRate where
  perClient : Option Nat := none
  perForm : Option Nat := none
  bytesPerHour : Option Nat := none
  deriving DecidableEq

structure FormChallenge where
  secret : String
  siteKey : Option String := none
  deriving DecidableEq

structure FormFileArtifact where
  collection : String
  required : Bool
  deriving DecidableEq

structure FormMountArtifact where
  path : String
  appendTo : String
  rate : Option FormRate := none
  honeypot : Option String := none
  challenge : Option FormChallenge := none
  «then» : Option String := none
  files : Record FormFileArtifact := ∅
  deriving DecidableEq

inductive ScopeBinding
  | app
  | dimension (dimension : String)
  deriving DecidableEq

structure HmacScheme where
  header : String
  algorithm : String
  encoding : String
  start : Option String
  timestamp : Option String
  signed : String
  id : Option String
  deriving DecidableEq

inductive WebhookScheme
  | preset (name : String)
  | hmac (scheme : HmacScheme)
  | basic
  | bearer
  deriving DecidableEq

structure WebhookMountArtifact where
  path : String
  scheme : WebhookScheme
  boundTo : ScopeBinding
  actions : List String
  timeoutMs : Nat
  deriving DecidableEq

inductive MountArtifact
  | rpc (mount : RpcMountArtifact)
  | link (mount : LinkMountArtifact)
  | spa (mount : SpaMountArtifact)
  | health (path : String)
  | form (mount : FormMountArtifact)
  | webhook (mount : WebhookMountArtifact)
  deriving DecidableEq

/-- `link` of a collection: no link mount, every one of its owner's, or the named ones. -/
inductive FileLink
  | no
  | every
  | mounts (names : List String)
  deriving DecidableEq

structure FileCollectionArtifact where
  owner : String
  read : String
  write : String
  delete : String
  maxBytes : Nat
  types : List String
  maxPerOwner : Option Nat
  link : FileLink
  scan : Bool := false
  deriving DecidableEq

structure FileKindArtifact where
  types : List String
  maxBytes : Nat
  scan : Bool := false
  inline : Bool := false
  deriving DecidableEq

structure JobArtifact where
  schedule : String
  actions : List String
  scope : ScopeBinding
  timeoutMs : Nat
  retries : Nat
  deriving DecidableEq

structure ExportArtifact where
  version : Nat
  consumers : List String
  audience : String
  deriving DecidableEq

structure ImportArtifact where
  app : String
  exported : String
  version : Nat
  digest : String
  procedures : List String
  usedBy : List String
  timeoutMs : Option Nat
  deriving DecidableEq

structure CspSource where
  origin : String
  purpose : String
  deriving DecidableEq

structure CspExtensions where
  connectSrc : List CspSource := []
  imgSrc : List CspSource := []
  frameAncestors : List CspSource := []
  scriptSrc : List CspSource := []
  frameSrc : List CspSource := []
  styleSrc : List CspSource := []
  fontSrc : List CspSource := []
  workerSrc : List CspSource := []
  deriving DecidableEq

/-! ## Declared reach and procedures -/

inductive Mode
  | read
  | write
  deriving DecidableEq

inductive JobMailer
  | installation
  | own
  deriving DecidableEq

structure DeclaredReach where
  sql : Option Mode := none
  unscoped : Record Mode := ∅
  connect : List String := []
  issues : Option String := none
  «then» : Option String := none
  kicks : List String := []
  mailer : Option JobMailer := none
  binds : Option String := none
  signs : List String := []
  egress : List String := []
  /-- Present on a public procedure's entry only. -/
  actions : Option (List String) := none
  deriving DecidableEq

structure AdmissionRate where
  perClient : Option Nat
  perCaller : Option Nat
  perEndpoint : Option Nat
  bytesPerHour : Option Nat
  deriving DecidableEq

inductive ProcedureChallenge
  | turnstile (secret : String) (siteKey : Option String) (action : String)
  | altcha (secret action : String) (cost maxAgeMs : Nat)
  deriving DecidableEq

structure ProcedureArtifact where
  rate : AdmissionRate
  challenge : Option ProcedureChallenge
  timeoutMs : Nat
  changesStateOnGet : Bool := false
  deriving DecidableEq

structure EndpointDirectory where
  dimension : String
  lists : Bool
  deriving DecidableEq

/-! ## Table policies -/

inductive TableScope
  | dimension (dimension key : String) (container : Option (String × String))
  | child (parent key column : String) (inherit : List String)
  | inbox (form : String)
  | reference (reason : String)
  | app (reason key : String)
  deriving DecidableEq

/-- One action as its text, several as a list. -/
inductive TableActionArtifact
  | one (action : String)
  | several (actions : List String)
  deriving DecidableEq

/-- `null` is no action. -/
def tableActions : Option TableActionArtifact → List String
  | none => []
  | some (.one action) => [action]
  | some (.several actions) => actions

structure TableActionsArtifact where
  read : TableActionArtifact
  insert : Option TableActionArtifact
  update : Option TableActionArtifact
  delete : Option TableActionArtifact
  appRead : List String := []
  appCount : List String := []
  deriving DecidableEq

structure ColumnPolicyArtifact where
  read : Option String := none
  write : Option String := none
  deriving DecidableEq

structure TablePolicyArtifact where
  scope : TableScope
  actions : TableActionsArtifact
  insert : List String
  update : List String
  version : Option String
  createdBy : Option String
  columns : Record ColumnPolicyArtifact
  files : Record String := ∅
  view : Bool := false
  deriving DecidableEq

/-! ## The artifact -/

structure ContractArtifact where
  app : String
  dimensions : Record DimensionArtifact := ∅
  actions : Record String := ∅
  roles : Record RoleArtifact := ∅
  mounts : Record MountArtifact := ∅
  files : Record FileCollectionArtifact := ∅
  fileKinds : Record FileKindArtifact := ∅
  jobs : Record JobArtifact := ∅
  exports : Record ExportArtifact := ∅
  imports : Record ImportArtifact := ∅
  csp : CspExtensions := {}
  tables : Record TablePolicyArtifact := ∅
  /-- Absent for a contract that is not of the staged kit. -/
  declared : Option (Record DeclaredReach) := none
  directories : Option (Record EndpointDirectory) := none
  locale : Option String := none
  displayName : Option String := none
  members : Option Members := none
  /-- `directory: 'labels'`. -/
  labels : Bool := false
  terminal : Option String := none
  procedures : Record ProcedureArtifact := ∅
  /-- The most days a token of each purpose is valid. -/
  tokens : Record Nat := ∅
  endpoints : List EndpointRow := []
  reservedPrefixes : List String := []

def ContractArtifact.table (artifact : ContractArtifact) : EndpointPatternTable EndpointRow :=
  ⟨artifact.endpoints, artifact.reservedPrefixes⟩

/-! ## The canonical order -/

def sortedOn {α : Type} (key : α → String) (values : List α) : List α :=
  values.insertionSort fun a b => codeUnits (key a) ≤ codeUnits (key b)

def canonicalRole (role : RoleArtifact) : RoleArtifact :=
  { role with
    grants := sorted role.grants
    member := role.member.map fun member => { member with assignableBy := sorted member.assignableBy } }

def canonicalMount : MountArtifact → MountArtifact
  | .rpc mount => .rpc { mount with callers := sorted mount.callers }
  | .link mount => .link { mount with grants := sorted mount.grants }
  | .webhook mount => .webhook { mount with actions := sorted mount.actions }
  | .spa mount => .spa { mount with «public» := sorted mount.public }
  | mount => mount

def canonicalFileLink : FileLink → FileLink
  | .mounts names => .mounts (sorted names)
  | link => link

def canonicalFiles (collection : FileCollectionArtifact) : FileCollectionArtifact :=
  { collection with types := sorted collection.types, link := canonicalFileLink collection.link }

/-- A list of actions sorted; one action as it is. -/
def canonicalActions : TableActionArtifact → TableActionArtifact
  | .one action => .one action
  | .several actions => .several (sorted actions)

def canonicalTableScope : TableScope → TableScope
  | .child parent key column inherit => .child parent key column (sorted inherit)
  | scope => scope

def canonicalTable (table : TablePolicyArtifact) : TablePolicyArtifact :=
  { table with
    actions :=
      { read := canonicalActions table.actions.read
        insert := table.actions.insert.map canonicalActions
        update := table.actions.update.map canonicalActions
        delete := table.actions.delete.map canonicalActions
        appRead := sorted table.actions.appRead
        appCount := sorted table.actions.appCount }
    scope := canonicalTableScope table.scope
    insert := sorted table.insert
    update := sorted table.update }

def canonicalAdmission (admission : BodyAdmission) : BodyAdmission :=
  { admission with contentTypes := sorted admission.contentTypes }

def canonicalAccess : RowAccess → RowAccess
  | .credentialed kind callers requirement => .credentialed kind (sortedOn Caller.text callers) requirement
  | .anonymous kind => .anonymous kind

def canonicalizeEndpoint (row : EndpointRow) : EndpointRow :=
  { row with access := canonicalAccess row.access, admission := row.admission.map canonicalAdmission }

def canonicalReach (reach : DeclaredReach) : DeclaredReach :=
  { reach with
    connect := sorted reach.connect
    actions := reach.actions.map sorted
    kicks := sorted reach.kicks
    signs := sorted reach.signs
    egress := sorted reach.egress }

def canonicalCsp (csp : CspExtensions) : CspExtensions :=
  { connectSrc := sortedOn CspSource.origin csp.connectSrc
    imgSrc := sortedOn CspSource.origin csp.imgSrc
    frameAncestors := sortedOn CspSource.origin csp.frameAncestors
    scriptSrc := sortedOn CspSource.origin csp.scriptSrc
    frameSrc := sortedOn CspSource.origin csp.frameSrc
    styleSrc := sortedOn CspSource.origin csp.styleSrc
    fontSrc := sortedOn CspSource.origin csp.fontSrc
    workerSrc := sortedOn CspSource.origin csp.workerSrc }

/-- The artifact with every list whose order carries no meaning sorted. -/
def canonicalizeArtifact (artifact : ContractArtifact) : ContractArtifact :=
  { artifact with
    roles := artifact.roles.mapValues canonicalRole
    mounts := artifact.mounts.mapValues canonicalMount
    files := artifact.files.mapValues canonicalFiles
    fileKinds := artifact.fileKinds.mapValues fun kind => { kind with types := sorted kind.types }
    jobs := artifact.jobs.mapValues fun job => { job with actions := sorted job.actions }
    exports := artifact.exports.mapValues fun declaration => { declaration with consumers := sorted declaration.consumers }
    imports := artifact.imports.mapValues fun declaration =>
      { declaration with procedures := sorted declaration.procedures, usedBy := sorted declaration.usedBy }
    csp := canonicalCsp artifact.csp
    tables := artifact.tables.mapValues canonicalTable
    endpoints := sortedOn EndpointRow.id (artifact.endpoints.map canonicalizeEndpoint)
    reservedPrefixes := sorted artifact.reservedPrefixes
    declared := artifact.declared.map fun declared => declared.mapValues canonicalReach }

/-! ## What is derived for an endpoint -/

inductive EndpointDelegation
  | members
  | creates
  deriving DecidableEq

def AccessForm.dimension? : AccessForm → Option String
  | .over dimension => some dimension
  | .within dimension _ => some dimension
  | .on dimension _ => some dimension
  | .creates dimension => some dimension
  | .app => none

/-- The one derivation of an endpoint's delegation. -/
def endpointDelegation (artifact : ContractArtifact) (row : EndpointRow) : Option EndpointDelegation :=
  match row.requirement with
  | some (.action capability) =>
    match capability.access with
    | .creates _ => some .creates
    | access =>
      match (access.dimension?.bind artifact.dimensions.lookup).bind DimensionArtifact.members with
      | some members => if members.manage = capability.action then some .members else none
      | none => none
  | _ => none

inductive EndpointMembers
  | manage
  | list
  deriving DecidableEq

/-- What an endpoint may ask about the members of its own target. -/
def endpointMembers (artifact : ContractArtifact) (row : EndpointRow) : Option EndpointMembers :=
  match row.requirement with
  | some (.action ⟨action, .on dimension _⟩) => membersOf action dimension
  | some (.action ⟨action, .within dimension _⟩) => membersOf action dimension
  | _ => none
where
  membersOf (action dimension : String) : Option EndpointMembers :=
    match (artifact.dimensions.lookup dimension).bind DimensionArtifact.members with
    | some members =>
      if members.manage = action then some .manage else if members.list = action then some .list else none
    | none => none

end Fabrika.AuthCore
