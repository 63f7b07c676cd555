/-
  Fabrika.Control.Diff — the conservative classification of an access change (diff.ts): the
  candidate snapshot against the environment's active one, part by part. Anything it cannot show
  to narrow access widens it.

  The comparisons of schemas and of the wording of e-mails are left out; they only add lines.
  Where the source looks a name up in a plain object without `Object.hasOwn`, the lookup is
  `Record.property`, which may answer a property of `Object.prototype`.
-/

import Fabrika.Control.EndpointLines

namespace Fabrika.Control

open Fabrika.Lib Fabrika.AuthCore

/-! ## Roles, files and tables -/

/-- An external role may be held by a person from outside the organization. -/
def externalChange (before after : Bool) : List RuledLine := ruled "role.external" (flagChange before after .widens .narrows)

def roleChanges (was now : RoleArtifact) : List RuledLine :=
  let grants := ruled "role.grants" (setChanges was.grants now.grants)
  let external := externalChange was.external now.external
  match was.member, now.member with
  | some before, some after =>
    if before.scope ≠ after.scope then grants ++ ruled "role.membership" (valueChange was.member now.member) ++ external
    else grants ++ ruled "role.assignable-by" (setChanges before.assignableBy after.assignableBy) ++ external
  | _, _ => grants ++ ruled "role.membership" (valueChange was.member now.member) ++ external

def fileKindChanges (was now : FileKindArtifact) : List RuledLine :=
  ruled "file-kind.types" (setChanges was.types now.types)
    ++ ruled "file-kind.size-limit" (limitChange (some was.maxBytes) (some now.maxBytes))
    ++ ruled "file-kind.scan" (flagChange was.scan now.scan .narrows .widens)
    ++ ruled "file-kind.inline" (flagChange was.inline now.inline .widens .narrows)

def fileLinkChanges (before after : FileLink) : List AccessEffect :=
  match before, after with
  | .no, .no => []
  | .every, .every => []
  | _, .no => [.narrows]
  | .no, _ => [.widens]
  | _, .every => [.widens]
  | .every, _ => [.narrows]
  | .mounts was, .mounts now => setChanges was now

def fileChanges (was now : FileCollectionArtifact) : List RuledLine :=
  ruled "file-collection.owner" (valueChange was.owner now.owner)
    ++ ruled "file-collection.read" (valueChange was.read now.read)
    ++ ruled "file-collection.write" (valueChange was.write now.write)
    ++ ruled "file-collection.delete" (valueChange was.delete now.delete)
    ++ ruled "file-collection.size-limit" (limitChange (some was.maxBytes) (some now.maxBytes))
    ++ ruled "file-collection.per-owner" (limitChange was.maxPerOwner now.maxPerOwner)
    ++ ruled "file-collection.types" (setChanges was.types now.types)
    ++ ruled "file-collection.link" (fileLinkChanges was.link now.link)
    ++ ruled "file-collection.scan" (flagChange was.scan now.scan .narrows .widens)

/-- A single action replaced by another is one change; otherwise each action the operation gains
    widens and each it loses narrows. -/
def operationChanges (before after : Option TableActionArtifact) : List AccessEffect :=
  match before, after with
  | some (.several _), _ => setChanges (tableActions before) (tableActions after)
  | _, some (.several _) => setChanges (tableActions before) (tableActions after)
  | _, _ => valueChange before after

/-- `columns[column] ?? {}`: what a plain object inherits has no `read` and no `write`. -/
def columnPolicy (columns : Record ColumnPolicyArtifact) (column : String) : ColumnPolicyArtifact :=
  match columns.property column with
  | .own policy => policy
  | .inherited => {}
  | .missing => {}

/-- A column's own read action. Without one it falls back to the table's. -/
def columnReadChange (before after : Option String) : List AccessEffect :=
  match before, after with
  | none, some _ => [.narrows]
  | some _, none => [.widens]
  | some was, some now => valueChange was now
  | none, none => []

/-- A column's own write action is one more action that updates the table. -/
def columnWriteChange (before after : Option String) : List AccessEffect :=
  match before, after with
  | none, some _ => [.widens]
  | some _, none => [.narrows]
  | some was, some now => valueChange was now
  | none, none => []

def columnChanges (was now : TablePolicyArtifact) (column : String) : List RuledLine :=
  let before := columnPolicy was.columns column
  let after := columnPolicy now.columns column
  ruled "table.column-read" (columnReadChange before.read after.read)
    ++ ruled "table.column-write" (columnWriteChange before.write after.write)

/-- `valueChange` of a file kind where one side is a property of `Object.prototype`: a function
    has no JSON text, so `shown` reads the length of `undefined`; `__proto__` prints as `{}`. -/
def inheritedKindChange (column : String) : Answer (List AccessEffect) :=
  if column = "__proto__" then pure [.widens] else throw .typeError

def fileColumnChange (before after : Record String) (column : String) : Answer (List AccessEffect) :=
  match before.property column, after.property column with
  | .missing, .missing => pure []
  | .missing, _ => pure [.neutral]
  | _, .missing => pure [.neutral]
  | .own was, .own now => pure (valueChange was now)
  | .inherited, .inherited => pure []
  | .inherited, .own _ => inheritedKindChange column
  | .own _, .inherited => inheritedKindChange column

/-- A column that starts or stops holding files, or holds another kind. -/
def fileColumnChanges (before after : Record String) : Answer (List AccessEffect) := do
  let changes ← (union before.keys after.keys).mapM (fileColumnChange before after)
  return changes.flatten

def tableChanges (was now : TablePolicyArtifact) : Answer (List RuledLine) := do
  let files ← fileColumnChanges was.files now.files
  return ruled "table.view" (if was.view = now.view then [] else [.neutral])
    ++ ruled "table.scope" (valueChange was.scope now.scope)
    ++ ruled "table.read" (operationChanges (some was.actions.read) (some now.actions.read))
    ++ ruled "table.insert" (operationChanges was.actions.insert now.actions.insert)
    ++ ruled "table.update" (operationChanges was.actions.update now.actions.update)
    ++ ruled "table.delete" (operationChanges was.actions.delete now.actions.delete)
    ++ ruled "table.app-read" (setChanges was.actions.appRead now.actions.appRead)
    ++ ruled "table.app-count" (setChanges was.actions.appCount now.actions.appCount)
    ++ ruled "table.insert-columns" (setChanges was.insert now.insert)
    ++ ruled "table.update-columns" (setChanges was.update now.update)
    ++ ruled "table.version" (valueChange was.version now.version)
    ++ ruled "table.creator" (valueChange was.createdBy now.createdBy)
    ++ (union was.columns.keys now.columns.keys).flatMap (columnChanges was now)
    ++ ruled "table.file-column" files

/-- What a `fileColumnLines` line says: the column, its kind and the actions that write it. -/
structure FileColumnLine where
  column : String
  kind : String
  writers : List String
  deriving DecidableEq

def fileColumnLines (table : TablePolicyArtifact) : List FileColumnLine :=
  table.files.pairs.map fun (column, kind) =>
    { column
      kind
      writers := ((if table.insert.contains column then tableActions table.actions.insert else [])
        ++ (if table.update.contains column then tableActions table.actions.update else [])
        ++ (columnPolicy table.columns column).write.toList).eraseDups }

/-- The lines of a table's file columns that the baseline's table does not have already. -/
def fileWriterChanges (before : Option TablePolicyArtifact) (table : TablePolicyArtifact) : List RuledLine :=
  let shown := (before.map fileColumnLines).getD []
  ruled "table.file-writers" (((fileColumnLines table).filter fun line => !shown.contains line).map fun _ => .neutral)

/-! ## Mounts -/

def withoutSiteKey (form : FormMountArtifact) : FormMountArtifact :=
  { form with challenge := form.challenge.map fun challenge => { challenge with siteKey := none } }

/-- A new or moved file field of a form widens, a required one narrows. -/
def formFileChange (before : Record FormFileArtifact) (field : String) (file : FormFileArtifact) : List AccessEffect :=
  match before.property field with
  | .own was =>
    if was.collection ≠ file.collection then [.widens]
    else if was.required = file.required then []
    else if file.required then [.narrows]
    else [.widens]
  | .inherited => [.widens]
  | .missing => [.widens]

def formFileChanges (before after : Record FormFileArtifact) : List AccessEffect :=
  after.pairs.flatMap (fun (field, file) => formFileChange before field file)
    ++ before.pairs.flatMap fun (field, _) => if after.property field = .missing then [.narrows] else []

def mountChanges (was now : MountArtifact) : List RuledLine :=
  match was, now with
  | .rpc before, .rpc after =>
    ruled "mount.declaration" (valueChange { before with backward := false } { after with backward := false })
      ++ ruled "mount.compatibility" (if before.backward = after.backward then [] else [.neutral])
  | .webhook before, .webhook after =>
    ruled "mount.declaration" (valueChange { before with timeoutMs := 0 } { after with timeoutMs := 0 })
      ++ ruled "mount.time-limit" (timeLimitChange before.timeoutMs after.timeoutMs)
  | .spa before, .spa after =>
    ruled "mount.declaration" (valueChange { before with «public» := [] } { after with «public» := [] })
      ++ ruled "mount.public-variables" (setChanges before.public after.public)
  | .form before, .form after =>
    ruled "mount.declaration" (valueChange { withoutSiteKey before with «then» := none, files := ∅ }
        { withoutSiteKey after with «then» := none, files := ∅ })
      ++ ruled "mount.form-files" (formFileChanges before.files after.files)
      ++ ruled "mount.public-variables" (setChanges (servedNames was) (servedNames now))
      ++ ruled "mount.then" (if before.then = after.then then [] else [.neutral])
  | _, _ => ruled "mount.declaration" (valueChange was now)

/-! ## The application, its dimensions and its people -/

def presentationChanges (baseline candidate : ContractArtifact) : List RuledLine :=
  ruled "application.display-name" (valueChange baseline.displayName candidate.displayName)
    ++ ruled "application.locale" (valueChange baseline.locale candidate.locale)

def peopleChanges (baseline candidate : ContractArtifact) : List RuledLine :=
  ruled "application.people"
      (if baseline.members = candidate.members then []
      else match candidate.members with
        | none => [.narrows]
        | some _ => [.widens])
    ++ ruled "application.directory" (flagChange baseline.labels candidate.labels .widens .narrows)

def terminalChanges (baseline candidate : ContractArtifact) : List RuledLine :=
  ruled "application.terminal"
    (if baseline.terminal = candidate.terminal then []
    else match candidate.terminal with
      | none => [.narrows]
      | some _ => [.widens])

/-- The root dimensions no table owns. -/
def opaqueRoots (artifact : ContractArtifact) : List String :=
  let owned := artifact.tables.pairs.filterMap fun (_, table) =>
    match table.scope with
    | .dimension dimension _ _ => some dimension
    | _ => none
  (artifact.dimensions.pairs.filter fun (name, dimension) => dimension.container.isNone && !owned.contains name).map Prod.fst

def opaqueRootChange (baseline candidate : ContractArtifact) (name : String) : List RuledLine :=
  ruled "dimension.opaque-root"
    (flagChange ((opaqueRoots baseline).contains name) ((opaqueRoots candidate).contains name) .widens .narrows)

def directoryChange (before after : Bool) : List RuledLine :=
  ruled "dimension.directory" (flagChange before after .widens .narrows)

def dimensionChanges (was now : DimensionArtifact) : List RuledLine :=
  ruled "dimension.declaration" (valueChange { was with labels := false } { now with labels := false })
    ++ directoryChange was.labels now.labels

/-! ## Procedures and directories -/

def procedureChanges (was now : ProcedureArtifact) : List RuledLine :=
  ruled "procedure.bucket"
      (limitChange was.rate.perClient now.rate.perClient ++ limitChange was.rate.perCaller now.rate.perCaller
        ++ limitChange was.rate.perEndpoint now.rate.perEndpoint ++ limitChange was.rate.bytesPerHour now.rate.bytesPerHour)
    ++ ruled "procedure.challenge"
      (if was.challenge = now.challenge then []
      else match was.challenge, now.challenge with
        | _, none => [.widens]
        | none, some _ => [.narrows]
        | some before, some after => valueChange before after)
    ++ ruled "procedure.time-limit" (timeLimitChange was.timeoutMs now.timeoutMs)
    ++ ruled "procedure.get-mutation" (flagChange was.changesStateOnGet now.changesStateOnGet .widens .narrows)

/-- Each procedure's admission and time limit; one the baseline does not record is shown. -/
def compareProcedures (baseline candidate : ContractArtifact) : List AccessChange :=
  candidate.procedures.pairs.flatMap fun (id, rules) =>
    place .endpoint id
      (match baseline.procedures.lookup id with
      | none =>
        ruled "procedure.admission" [.neutral]
          ++ ruled "procedure.get-mutation" (if rules.changesStateOnGet then [.widens] else [])
      | some was => procedureChanges was rules)

/-- What the baseline records, or the one reach the runtime gave before it recorded any. -/
def baselineDirectories (artifact : ContractArtifact) : Record EndpointDirectory :=
  match artifact.directories with
  | some directories => directories
  | none =>
    artifact.endpoints.foldl (fun implied row =>
      match row.requirement with
      | some (.action ⟨_, access⟩) =>
        match access.dimension? with
        | some dimension =>
          if endpointMembers artifact row = some .list then implied.insert row.id ⟨dimension, true⟩ else implied
        | none => implied
      | _ => implied) ∅

/-- A new reach of a member directory widens, a removed one narrows. -/
def endpointDirectoryChange (before after : Record EndpointDirectory) (endpoint : String) : List AccessEffect :=
  match before.property endpoint, after.property endpoint with
  | .missing, .missing => []
  | _, .missing => [.narrows]
  | .own was, .own now =>
    if was.dimension = now.dimension && (was.lists || !now.lists) then
      if was.lists && !now.lists then [.narrows] else []
    else [.widens]
  | _, _ => [.widens]

def compareDirectories (baseline candidate : ContractArtifact) : List AccessChange :=
  let before := baselineDirectories baseline
  let after := candidate.directories.getD ∅
  (union before.keys after.keys).flatMap fun endpoint =>
    place .endpoint endpoint (ruled "endpoint.directory" (endpointDirectoryChange before after endpoint))

/-! ## Steps off the paved road -/

/-- `write` reaches more than `read`, and either more than nothing. What a plain object inherits
    is neither `null` nor a mode. -/
def modeChange (before after : Property Mode) : List AccessEffect :=
  if before = after then []
  else
    match before, after with
    | _, .missing => [.narrows]
    | .missing, _ => [.widens]
    | _, .own .write => [.widens]
    | _, _ => [.narrows]

def ofMode : Option Mode → Property Mode
  | some mode => .own mode
  | none => .missing

def unscopedChanges (was now : Record Mode) : List AccessEffect :=
  (union was.keys now.keys).flatMap fun table => modeChange (was.property table) (now.property table)

/-- One name in place of another: the new one widens, the old one narrows. -/
def nameChange (before after : Option String) : List AccessEffect :=
  if before = after then []
  else (if after.isSome then [.widens] else []) ++ (if before.isSome then [.narrows] else [])

/-- The link mount a site issues share links of. -/
def issuesChange (before after : Option String) : List AccessEffect := nameChange before after

/-- The webhook whose bindings a mutation creates and removes. -/
def bindsChange (before after : Option String) : List AccessEffect := nameChange before after

def mailerChange (before after : Option JobMailer) : List AccessEffect :=
  if before = after then []
  else
    match before, after with
    | _, none => [.narrows]
    | _, some .installation => [.widens]
    | none, some .own => [.widens]
    | some _, some .own => [.narrows]

def reachSteps (was now : DeclaredReach) : List RuledLine :=
  ruled "reach.sql" (modeChange (ofMode was.sql) (ofMode now.sql))
    ++ ruled "reach.unscoped" (unscopedChanges was.unscoped now.unscoped)
    ++ ruled "reach.connect" (setChanges was.connect now.connect)
    ++ ruled "reach.issues" (issuesChange was.issues now.issues)
    ++ ruled "reach.mailer" (mailerChange was.mailer now.mailer)

/-- A kick widens nothing, except from a public procedure. -/
def kicksChanges (before : List String) (now : DeclaredReach) : List AccessEffect :=
  setLines before now.kicks (if now.actions.isNone then .neutral else .widens) .narrows

/-- What one site declares: each effect is compared on its own. -/
def siteChanges (was now : DeclaredReach) : List RuledLine :=
  reachSteps was now
    ++ ruled "reach.then" (if was.then = now.then then [] else [.neutral])
    ++ ruled "reach.kicks" (kicksChanges was.kicks now)
    ++ ruled "reach.actions" (setChanges (was.actions.getD []) (now.actions.getD []))
    ++ ruled "reach.binds" (bindsChange was.binds now.binds)
    ++ ruled "reach.signs" (setChanges was.signs now.signs)
    ++ ruled "reach.egress" (setChanges was.egress now.egress)

/-- `sites[site] ?? NO_REACH`. What a plain object inherits has no `unscoped` to list. -/
def siteReach (sites : Record DeclaredReach) (site : String) : Answer DeclaredReach :=
  match sites.property site with
  | .own reach => pure reach
  | .missing => pure {}
  | .inherited => throw .typeError

def jobSitePrefix : String := "job:"

/-- A site is an endpoint by its id, or a job (`job:<name>`). -/
def siteSubject (site : String) : ChangeSubjectKind × String :=
  if Text.startsWith site jobSitePrefix then (.job, String.ofList (site.toList.drop jobSitePrefix.length))
  else (.endpoint, site)

def compareSite (before after : Record DeclaredReach) (site : String) : Answer (List AccessChange) := do
  let was ← siteReach before site
  let now ← siteReach after site
  return place (siteSubject site).1 (siteSubject site).2 (siteChanges was now)

/-- The reach each site declares. -/
def compareDeclared (app : String) (before after : Option (Record DeclaredReach)) : Answer (List AccessChange) :=
  match before, after with
  | some _, none => pure (place .application app (ruled "application.staged-kit" [.widens]))
  | none, none => pure []
  | before, some after => do
    let sites := before.getD ∅
    let moved := if before.isNone then ruled "application.staged-kit" [.narrows] else []
    let changes ← (union sites.keys after.keys).mapM (compareSite sites after)
    return place .application app moved ++ changes.flatten

/-! ## The contract -/

def cspDirectives : List (String × (CspExtensions → List CspSource)) :=
  [("connectSrc", CspExtensions.connectSrc), ("imgSrc", CspExtensions.imgSrc),
    ("frameAncestors", CspExtensions.frameAncestors), ("scriptSrc", CspExtensions.scriptSrc),
    ("frameSrc", CspExtensions.frameSrc), ("styleSrc", CspExtensions.styleSrc), ("fontSrc", CspExtensions.fontSrc),
    ("workerSrc", CspExtensions.workerSrc)]

def compareCsp (baseline candidate : ContractArtifact) : List AccessChange :=
  cspDirectives.flatMap fun (directive, sources) =>
    place .csp directive
      (ruled "csp.source" (setChanges ((sources baseline.csp).map CspSource.origin)
        ((sources candidate.csp).map CspSource.origin)))

def jobChanges (was now : JobArtifact) : List RuledLine :=
  ruled "job.actions" (setChanges was.actions now.actions)
    ++ ruled "job.scope" (valueChange was.scope now.scope)
    ++ ruled "job.time-limit" (timeLimitChange was.timeoutMs now.timeoutMs)

def exportChanges (was now : ExportArtifact) : List RuledLine :=
  ruled "export.consumers" (setChanges was.consumers now.consumers)
    ++ ruled "export.audience" (valueChange was.audience now.audience)
    ++ ruled "export.version" (valueChange was.version now.version)

def importChanges (was now : ImportArtifact) : List RuledLine :=
  ruled "import.procedures" (setChanges was.procedures now.procedures)
    ++ ruled "import.used-by" (setChanges was.usedBy now.usedBy)
    ++ ruled "import.declaration"
      (valueChange { was with procedures := [], usedBy := [], timeoutMs := none }
        { now with procedures := [], usedBy := [], timeoutMs := none })

/-- The lines of a new dimension's labels, and of a new role's external holders. -/
def compareNewDimensions (baseline candidate : ContractArtifact) : List AccessChange :=
  candidate.dimensions.pairs.flatMap fun (name, dimension) =>
    if (baseline.dimensions.lookup name).isNone then place .dimension name (directoryChange false dimension.labels) else []

def compareNewRoles (baseline candidate : ContractArtifact) : List AccessChange :=
  candidate.roles.pairs.flatMap fun (name, role) =>
    if (baseline.roles.lookup name).isNone then place .role name (externalChange false role.external) else []

/-- Two contracts, both there, in the canonical order. -/
def compareArtifacts (baseline candidate : ContractArtifact) : Answer (List AccessChange) := do
  let application := place .application candidate.app
    (ruled "application.contract" (valueChange baseline.app candidate.app)
      ++ presentationChanges baseline candidate ++ peopleChanges baseline candidate ++ terminalChanges baseline candidate)
  let endpoints ← compareEndpoints baseline candidate
  let reserved := place .application candidate.app
    (ruled "application.reserved-prefix" (setLines baseline.reservedPrefixes candidate.reservedPrefixes .narrows .widens))
  let dimensions ← compareKeyed .dimension baseline.dimensions candidate.dimensions
    { changed := fun _ was now => pure (dimensionChanges was now) }
  let roots := (union (opaqueRoots baseline) (opaqueRoots candidate)).flatMap fun name =>
    place .dimension name (opaqueRootChange baseline candidate name)
  let actions ← compareKeyed .action baseline.actions candidate.actions { changed := fun _ _ _ => pure [] }
  let roles ← compareKeyed .role baseline.roles candidate.roles { changed := fun _ was now => pure (roleChanges was now) }
  let mounts ← compareKeyed .mount baseline.mounts candidate.mounts
    { removed := fun name _ => if (removedMounts baseline candidate).contains name then [] else [.narrows]
      changed := fun _ was now => pure (mountChanges was now) }
  let files ← compareKeyed .fileCollection baseline.files candidate.files
    { changed := fun _ was now => pure (fileChanges was now) }
  -- A file kind adds no authority of its own: who writes and reads its files is the reach of the columns that hold them.
  let kinds ← compareKeyed .fileKind baseline.fileKinds candidate.fileKinds
    { added := fun _ _ => .neutral, changed := fun _ was now => pure (fileKindChanges was now) }
  let jobs ← compareKeyed .job baseline.jobs candidate.jobs { changed := fun _ was now => pure (jobChanges was now) }
  let exports ← compareKeyed .exported baseline.exports candidate.exports
    { changed := fun _ was now => pure (exportChanges was now) }
  let imports ← compareKeyed .imported baseline.imports candidate.imports
    { changed := fun _ was now => pure (importChanges was now) }
  let tables ← compareKeyed .table baseline.tables candidate.tables { changed := fun _ was now => tableChanges was now }
  let writers := candidate.tables.pairs.flatMap fun (name, table) =>
    place .table name (fileWriterChanges (baseline.tables.lookup name) table)
  let tokens ← compareKeyed .token baseline.tokens candidate.tokens
    { changed := fun _ was now => pure (ruled "token.lifetime" (timeLimitChange was now)) }
  let declared ← compareDeclared candidate.app baseline.declared candidate.declared
  return application ++ endpoints ++ reserved ++ dimensions ++ compareNewDimensions baseline candidate ++ roots ++ actions
    ++ roles ++ compareNewRoles baseline candidate ++ mounts ++ files ++ kinds ++ jobs ++ exports ++ imports
    ++ compareCsp baseline candidate ++ tables ++ writers ++ tokens ++ declared ++ compareProcedures baseline candidate
    ++ compareDirectories baseline candidate

/-- The baseline of a first contract; a staged-kit candidate is compared with sites that declare
    nothing. -/
def emptyArtifact (candidate : ContractArtifact) : ContractArtifact :=
  { app := candidate.app, declared := candidate.declared.map fun _ => ∅ }

def compareContracts (before after : Option ContractArtifact) : Answer (List AccessChange) :=
  match before, after with
  | none, none => pure []
  | some before, none => pure (place .application before.app (ruled "application.contract" [.widens]))
  | none, some after => do
    let candidate := canonicalizeArtifact after
    let changes ← compareArtifacts (emptyArtifact candidate) candidate
    return place .application candidate.app (ruled "application.contract" [.widens]) ++ changes
  | some before, some after => compareArtifacts (canonicalizeArtifact before) (canonicalizeArtifact after)

/-! ## The snapshot -/

structure MigrationDeviation where
  kind : String
  object : String
  file : String
  deriving DecidableEq

inductive FileAdoption
  | adopt (collection table file : String)
  | release (collection file : String)
  deriving DecidableEq

def FileAdoption.file : FileAdoption → String
  | .adopt _ _ file => file
  | .release _ file => file

/-- `migrations` are the checksums by file name. -/
structure AccessSnapshot where
  contract : Option ContractArtifact
  migrations : Record String := ∅
  databaseCode : List MigrationDeviation := []
  fileAdoptions : List FileAdoption := []

def deviationKey (deviation : MigrationDeviation) : String :=
  deviation.file ++ "\n" ++ deviation.kind ++ "\n" ++ deviation.object

def byDeviationKey (deviations : List MigrationDeviation) : Record MigrationDeviation :=
  deviations.foldl (fun map deviation => map.insert (deviationKey deviation) deviation) ∅

/-- New database code widens, and so does code in a file whose text changed; removed code
    narrows. -/
def compareDatabaseCode (baseline candidate : AccessSnapshot) : List AccessChange :=
  let before := byDeviationKey baseline.databaseCode
  let after := byDeviationKey candidate.databaseCode
  (union before.keys after.keys).flatMap fun key =>
    match before.lookup key, after.lookup key with
    | some was, none => place .migration was.file (ruled "migration.database-code" [.narrows])
    | none, none => []
    | none, some now => place .migration now.file (ruled "migration.database-code" [.widens])
    | some _, some now =>
      place .migration now.file (ruled "migration.database-code"
        (valueChange (baseline.migrations.lookup now.file) (candidate.migrations.lookup now.file)))

/-- The adoption steps of a migration file that is new or changed. -/
def compareFileAdoptions (baseline candidate : AccessSnapshot) : List AccessChange :=
  candidate.fileAdoptions.flatMap fun adoption =>
    if baseline.migrations.lookup adoption.file = candidate.migrations.lookup adoption.file then []
    else
      place .migration adoption.file
        (match adoption with
        | .adopt _ _ _ => ruled "migration.adopt" [.widens]
        | .release _ _ => ruled "migration.release" [.narrows])

def classifyAccess (baseline candidate : AccessSnapshot) : Answer (List AccessChange) := do
  let contracts ← compareContracts baseline.contract candidate.contract
  let migrations ← compareKeyed .migration baseline.migrations candidate.migrations
    { changed := fun _ was now => pure (ruled "migration.changed" (valueChange was now)) }
  return contracts ++ migrations ++ compareDatabaseCode baseline candidate ++ compareFileAdoptions baseline candidate

end Fabrika.Control
