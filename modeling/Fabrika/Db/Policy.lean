/-
  Fabrika.Db.Policy — policy.ts, the parse of one table: its column list entry and its policy
  against the vocabulary, up to the containment that only all tables together decide
  (`Db.Links`).

  The inputs are plain records, so they are typed here: what `plainRecord`, `onlyFields` and
  `parseList` refuse (an accessor, a stray field, a subclassed array) has no value of these
  types. A `PolicyError` is its message.
-/

import Fabrika.Lib.Record

namespace Fabrika.Db.Policy

export Fabrika.Lib (Record)

abbrev Parse := Except String

def refuseIf (refused : Bool) (message : String) : Parse Unit := if refused then throw message else pure ()

/-- The names in the order they were added, each once. -/
def nameSet (names : List String) : List String := names.eraseDups

def inSet (set : List String) (name : String) : Bool := set.contains name

def includes (names : List String) (name : String) : Bool := names.contains name

def isIdentifierChar (first : Bool) (c : Char) : Bool :=
  ('a' ≤ c && c ≤ 'z') || c = '_' || (!first && '0' ≤ c && c ≤ '9')

/-- `^[a-z_][a-z0-9_]*$`, at most 63 characters. -/
def isPlainIdentifier (value : String) : Bool :=
  match value.toList with
  | [] => false
  | c :: rest => isIdentifierChar true c && rest.all (isIdentifierChar false) && rest.length < 63

/-! ## Inputs -/

/-- A key of the column list. No database takes one that names a referenced column twice. -/
structure ForeignKey where
  columns : List String
  table : String
  references : List String
  distinct : references.Nodup
  deriving DecidableEq

structure TableColumns where
  columns : List String
  foreignKeys : List ForeignKey := []
  dates : List String := []
  timestamps : List String := []
  booleans : List String := []
  json : List String := []
  view : Bool := false
  deriving DecidableEq

/-- `scope.in`: an absent dimension is the vocabulary's. -/
structure ContainerInput where
  dimension : Option String
  column : String
  deriving DecidableEq

inductive ScopeInput
  | dimension (dimension : String) (key : Option String) (container : Option ContainerInput)
  | child (parent : String) (key column : Option String) (inherit : Option (List String))
  | reference (reason : String)
  | app (reason : String) (key : Option String)
  deriving DecidableEq

/-- An operation's actions as the policy writes them: one, or an array. -/
inductive TableAction
  | one (action : String)
  | list (actions : List String)
  deriving DecidableEq

structure ActionsInput where
  read : TableAction
  insert : Option TableAction := none
  update : Option TableAction := none
  delete : Option TableAction := none
  appRead : Option (List String) := none
  appCount : Option (List String) := none
  deriving DecidableEq

structure ColumnPolicy where
  read : Option String := none
  write : Option String := none
  deriving DecidableEq

structure QueueInput where
  attempts : String
  due : String
  maxAttempts : Option Int := none
  deriving DecidableEq

structure TablePolicy where
  scope : ScopeInput
  actions : ActionsInput
  insert : Option (List String) := none
  update : Option (List String) := none
  version : Option String := none
  createdBy : Option String := none
  columns : Record ColumnPolicy := ∅
  queue : Option QueueInput := none
  files : Option (Record String) := none

/-! ## The vocabulary -/

/-- Each dimension, with the one it lies in. -/
abbrev Containment := Record (Option String)

structure Vocabulary where
  dimensions : Containment
  actions : List String

/-- The dimension `dimension` lies in. -/
def containerOf (containment : Containment) (dimension : String) : Option String :=
  (containment.lookup dimension).join

def cycleMessage (path : List String) : String :=
  "the vocabulary's containment is a cycle (" ++ " → ".intercalate path ++ ")"

/-- The climb from the first dimension of `path`: `above` is the next one. With as much fuel
    as there are dimensions the last step is past them all, and refuses. -/
def checkClimb (containment : Containment) : Nat → List String → Option String → Parse Unit
  | _, _, none => pure ()
  | 0, path, some above => throw (cycleMessage (path ++ [above]))
  | fuel + 1, path, some above =>
    if path.head? = some above || containment.keys.length < path.length + 1 then
      throw (cycleMessage (path ++ [above]))
    else checkClimb containment fuel (path ++ [above]) (containerOf containment above)

def parseVocabulary (vocabulary : Vocabulary) : Parse Vocabulary := do
  let containment := vocabulary.dimensions
  containment.entries.forM fun entry =>
    refuseIf (entry.2.any fun container => !containment.keys.contains container)
      ("the vocabulary puts " ++ entry.1 ++ " in " ++ entry.2.getD "" ++ ", which is not one of its dimensions")
  containment.keys.forM fun name =>
    checkClimb containment containment.keys.length [name] (containerOf containment name)
  return { vocabulary with actions := nameSet vocabulary.actions }

/-! ## Models -/

structure Container where
  dimension : String
  column : String
  deriving DecidableEq

/-- A child's `column` and `inherit`, where absent, come from its parent once all tables are
    linked. -/
inductive ParsedScope
  | dimension (dimension key : String) (container : Option Container)
  | child (parent key : String) (column : Option String) (inherit : Option (List String))
  | reference (reason : String)
  | app (reason key : String)
  deriving DecidableEq

inductive ScopeModel
  | dimension (dimension key : String) (container : Option Container)
  | child (parent key column : String) (inherit : List String)
  | reference (reason : String)
  | app (reason key : String)
  deriving DecidableEq

structure ActionModel where
  read : List String
  insert : List String
  update : List String
  delete : List String
  appRead : List String
  appCount : List String
  deriving DecidableEq

structure QueueModel where
  attempts : String
  due : String
  maxAttempts : Int
  deriving DecidableEq

def defaultMaxAttempts : Int := 10

/-- A table's model but for its chain; `Scope` is the parsed or the resolved scope. -/
structure TableOf (Scope : Type) where
  name : String
  scope : Scope
  actions : ActionModel
  columns : List String
  visible : List String
  insert : List String
  update : List String
  version : Option String
  createdBy : Option String
  queue : Option QueueModel
  files : Record String
  columnReads : Record String
  columnWrites : Record String
  dates : List String
  timestamps : List String
  booleans : List String
  json : List String
  foreignKeys : List ForeignKey
  view : Bool

abbrev ParsedTable := TableOf ParsedScope

/-! ## The parse of one table -/

section Columns

variable (table : String) (columns : List String)

def listed : String := ", ".intercalate columns

/-- `column`: a column the policy or the entry states. -/
def column (name field : String) : Parse String :=
  if inSet columns name then pure name
  else throw (table ++ ": " ++ field ++ " names " ++ name ++ ", which is not a column (columns: " ++ listed columns ++ ")")

def columnsOf (value : Option (List String)) (field : String) : Parse (List String) :=
  (value.getD []).mapM fun name => column table columns name field

/-- `derived`: a column a convention names. -/
def derived (name field reason fix : String) : Parse String :=
  if inSet columns name then pure name
  else
    throw (table ++ ": " ++ field ++ " defaults to " ++ name ++ " (" ++ reason ++ "), which is not a column; state "
      ++ fix ++ " (columns: " ++ listed columns ++ ")")

def nonEmpty (value field : String) : Parse String :=
  if value = "" then throw (table ++ ": " ++ field ++ " must be a non-empty string") else pure value

def parseForeignKey (key : ForeignKey) : Parse ForeignKey := do
  let columns ← key.columns.mapM fun name => column table columns name "a foreign key"
  let references ← key.references.mapM fun name => nonEmpty table name "a foreign key reference"
  refuseIf (columns.length = 0 || columns.length ≠ references.length)
    (table ++ ": a foreign key takes columns and references, two plain arrays of one length")
  let _ ← nonEmpty table key.table "a foreign key table"
  return key

def parseKey (key : Option String) : Parse String :=
  match key with
  | none => derived table columns "id" "scope.key" "the key convention" "scope.key"
  | some stated => column table columns stated "scope.key"

/-- The container is the vocabulary's, never one the policy chooses; its column is
    `<container>_id` or the one `scope.in` states. -/
def parseContainer (dimension : String) (container : Option String) (input : Option ContainerInput) :
    Parse (Option Container) :=
  match container, input with
  | none, none => pure none
  | none, some _ =>
    throw (table ++ ": the vocabulary puts " ++ dimension ++ " in no container, so scope.in is not a field here")
  | some container, none => do
    let name ← derived table columns (container ++ "_id") "scope.in.column"
      ("the vocabulary puts " ++ dimension ++ " in " ++ container) "scope.in: \x7b column \x7d"
    return some ⟨container, name⟩
  | some container, some stated => do
    refuseIf (stated.dimension.any fun other => other ≠ container)
      (table ++ ": the vocabulary puts " ++ dimension ++ " in " ++ container ++ ", not in " ++ stated.dimension.getD "")
    let name ← column table columns stated.column "scope.in.column"
    return some ⟨container, name⟩

def parseScope (scope : ScopeInput) (containment : Containment) : Parse ParsedScope :=
  match scope with
  | .dimension dimension key input => do
    let dimension ← nonEmpty table dimension "scope.dimension"
    match containment.lookup dimension with
    | none =>
      throw (table ++ ": scope.dimension names " ++ dimension
        ++ ", which is not a dimension of the vocabulary (dimensions: " ++ listed containment.keys ++ ")")
    | some container =>
      let container ← parseContainer table columns dimension container input
      let key ← parseKey table columns key
      return .dimension dimension key container
  | .child parent key stated inherit => do
    let parent ← nonEmpty table parent "scope.child"
    let key ← parseKey table columns key
    let stated ← stated.mapM fun name => column table columns name "scope.column"
    let inherit ← inherit.mapM fun names => columnsOf table columns (some names) "scope.inherit"
    return .child parent key stated inherit
  | .reference reason => do
    let reason ← nonEmpty table reason "scope.reference"
    return .reference reason
  | .app reason key => do
    let reason ← nonEmpty table reason "scope.app"
    let key ← parseKey table columns key
    return .app reason key

end Columns

section Actions

variable (table : String) (vocabulary : List String)

def action (value field : String) : Parse String := do
  let name ← nonEmpty table value field
  if inSet vocabulary name then pure name
  else
    throw (table ++ ": " ++ field ++ " names " ++ name ++ ", which is not an action of the vocabulary (actions: "
      ++ listed vocabulary ++ ")")

/-- The first name that stands among those before it. -/
def twice (seen : List String) : List String → Option String
  | [] => none
  | name :: rest => if seen.contains name then some name else twice (name :: seen) rest

def distinctActions (input : List String) (field : String) : Parse (List String) := do
  let names ← input.mapM fun value => action table vocabulary value field
  refuseIf (names = []) (table ++ ": " ++ field ++ " lists no action; leave it out")
  match twice [] names with
  | some name => throw (table ++ ": " ++ field ++ " names " ++ name ++ " twice")
  | none => return names

def parseOperation (value : TableAction) (field : String) : Parse (List String) :=
  match value with
  | .one value => do
    let name ← action table vocabulary value field
    return [name]
  | .list values => distinctActions table vocabulary values field

def parseOptional (value : Option TableAction) (field : String) : Parse (List String) :=
  match value with
  | none => pure []
  | some value => parseOperation table vocabulary value field

/-- A scope's kind where it takes no `appRead` and no `appCount`. -/
def ScopeInput.recordless : ScopeInput → Option String
  | .app _ _ => some "an application table"
  | .reference _ => some "a reference table"
  | _ => none

/-- `appRead` and `appCount`: actions besides the read action, of a dimension or child table. -/
def parseReach (scope : ScopeInput) (read : List String) (input : Option (List String)) (field : String) :
    Parse (List String) :=
  match input, scope.recordless with
  | none, _ => pure []
  | some _, some kind => throw (table ++ ": actions." ++ field ++ " is for a dimension or child table; " ++ kind ++ " takes none")
  | some input, none => do
    let names ← distinctActions table vocabulary input ("actions." ++ field)
    match names.find? fun name => includes read name with
    | some name =>
      throw (table ++ ": actions." ++ field ++ " names " ++ name ++ ", its read action, which reads every row app-wide already")
    | none => return names

def parseActions (scope : ScopeInput) (actions : ActionsInput) : Parse ActionModel := do
  let read ← parseOperation table vocabulary actions.read "actions.read"
  let appRead ← parseReach table vocabulary scope read actions.appRead "appRead"
  let appCount ← parseReach table vocabulary scope read actions.appCount "appCount"
  let both := appCount.find? fun name => includes appRead name
  refuseIf both.isSome (table ++ ": actions.appRead and actions.appCount both name " ++ both.getD "")
  let insert ← parseOptional table vocabulary actions.insert "actions.insert"
  let update ← parseOptional table vocabulary actions.update "actions.update"
  let delete ← parseOptional table vocabulary actions.delete "actions.delete"
  return ⟨read, insert, update, delete, appRead, appCount⟩

end Actions

section Rest

variable (table : String) (columns : List String)

/-- A column's own write action takes the column from the table's update action. -/
def columnWrite (name write : String) (actions : ActionModel) (update : List String) : Parse String :=
  if inSet update name then
    throw (table ++ ": " ++ name ++ " is in update, which the table's update action writes, and declares its own write action "
      ++ write ++ "; remove it from update")
  else if includes actions.update write then
    throw (table ++ ": columns." ++ name ++ ".write names " ++ write ++ ", the table's update action; list " ++ name
      ++ " in update instead")
  else pure write

def viewWrite : String :=
  table ++
    ": a view is never written by a handler, so its policy takes only actions.read, appRead, appCount and column read actions"

/-- `columnReads`, `columnWrites` and the columns no read action of the table reads alone. -/
structure ColumnActions where
  reads : Record String
  writes : Record String
  restricted : List String

/-- One entry of `policy.columns`, after those in `acc`. -/
def parseColumnPolicy (vocabulary : List String) (view : Bool) (actions : ActionModel) (update : List String)
    (acc : ColumnActions) (name : String) (policy : ColumnPolicy) : Parse ColumnActions := do
  let name ← column table columns name "columns"
  refuseIf (policy.read = none && policy.write = none)
    (table ++ ": columns." ++ name ++ " declares no action; it takes read, write or both")
  let read ← policy.read.mapM fun read => action table vocabulary read ("columns." ++ name ++ ".read")
  refuseIf (policy.write.isSome && view) (viewWrite table)
  let write ← policy.write.mapM fun write => do
    let write ← action table vocabulary write ("columns." ++ name ++ ".write")
    columnWrite table name write actions update
  return {
    reads := match read with
      | some read => acc.reads.insert name read
      | none => acc.reads
    writes := match write with
      | some write => acc.writes.insert name write
      | none => acc.writes
    restricted := match read with
      | some read => if 1 < actions.read.length || !includes actions.read read then acc.restricted ++ [name] else acc.restricted
      | none => acc.restricted }

def parseColumnPolicies (vocabulary : List String) (view : Bool) (actions : ActionModel) (update : List String)
    (policies : Record ColumnPolicy) : Parse ColumnActions :=
  policies.entries.foldlM
    (fun acc entry => parseColumnPolicy table columns vocabulary view actions update acc entry.1 entry.2) ⟨∅, ∅, []⟩

def parseQueue (input : QueueInput) (timestamps : List String) (version : Option String) (actions : ActionModel)
    (update : List String) (columnWrites : Record String) : Parse QueueModel := do
  let attempts ← column table columns input.attempts "queue.attempts"
  let due ← column table columns input.due "queue.due"
  refuseIf (attempts = due) (table ++ ": queue.attempts and queue.due name one column, " ++ due ++ "; they need two")
  refuseIf (!inSet timestamps due)
    (table ++ ": queue.due names " ++ due ++ ", which is not a timestamp column; a claim moves it by the backoff")
  refuseIf (input.maxAttempts.any (· < 1)) (table ++ ": queue.maxAttempts must be a positive integer")
  refuseIf (version = none) (table ++ ": a queue table needs a version column; a claimed row is finished with expectVersion")
  refuseIf (actions.update.length = 0) (table ++ ": a queue table needs an update action; claim and requeue need it")
  -- A claimed row answers its new version as `version` and its capability as `ref`, beside its columns.
  refuseIf (inSet columns "ref" || (inSet columns "version" && version ≠ some "version"))
    (table ++ ": a queue table has no column named ref, nor version unless it is the version column; a claimed row carries both")
  [(attempts, "queue.attempts"), (due, "queue.due")].forM fun (name, field) =>
    refuseIf (inSet update name || columnWrites.keys.contains name)
      (table ++ ": " ++ name ++ " is " ++ field ++ ", which the layer writes; remove it from update and its write action")
  return ⟨attempts, due, input.maxAttempts.getD defaultMaxAttempts⟩

/-- The columns the layer writes whatever the chain: the key, the containment column, the
    version, the creator and the queue's. -/
def layerColumns (scope : ParsedScope) (version createdBy : Option String) (queue : Option QueueModel) : List String :=
  (match scope with
    | .dimension _ key container => key :: (container.map Container.column).toList
    | .child _ key column _ => key :: column.toList
    | .app _ key => [key]
    | .reference _ => [])
  ++ version.toList ++ createdBy.toList ++ (queue.map fun queue => [queue.attempts, queue.due]).getD []

def parseFileColumns (files : Record String) (layer : List String) : Parse (Record String) := do
  refuseIf (files.keys.length = 0) (table ++ ": files declares no column; remove it or name a column and its file kind")
  files.entries.forM fun entry => do
    let name ← column table columns entry.1 "files"
    refuseIf (includes layer name)
      (table ++ ": files names " ++ name ++ ", which the layer writes itself; a file column holds a file reference")
    refuseIf (!isPlainIdentifier entry.2)
      (table ++ ": files." ++ name ++ " names no file kind (allowed: the name of a c.files(\x7b … \x7d) kind of the contract)")
  return files

/-- `dates`, `timestamps`, `booleans` and `json`: columns of the table. -/
def parseColumnSet (input : List String) (field : String) : Parse (List String) := do
  let names ← input.mapM fun name => column table columns name field
  return nameSet names

end Rest

/-- The scope's own key, which every capability reads. -/
def ParsedScope.key : ParsedScope → Option String
  | .dimension _ key _ => some key
  | .child _ key _ _ => some key
  | .app _ key => some key
  | .reference _ => none

def ParsedScope.mode : ParsedScope → String
  | .dimension .. => "dimension"
  | .child .. => "child"
  | .app .. => "app"
  | .reference .. => "reference"

/-- A view takes a child or a reference scope. -/
def checkView (table : String) (view : Bool) (scope : ParsedScope) : Parse Unit :=
  match view, scope with
  | true, .dimension .. => refuse "a dimension"
  | true, .app .. => refuse "an application"
  | _, _ => pure ()
where
  refuse (kind : String) : Parse Unit :=
    throw (table ++
      ": a view is read-only, so it takes a child scope, \x7b child, key?, column?, inherit? \x7d, or \x7b reference \x7d; "
      ++ kind ++ " table's rows are written")

def parseTable (table : String) (entry : TableColumns) (policy : TablePolicy) (vocabulary : Vocabulary) :
    Parse ParsedTable := do
  refuseIf (!isPlainIdentifier table) (table ++ ": a table name must match ^[a-z_][a-z0-9_]*$")
  entry.columns.forM fun name =>
    refuseIf (!isPlainIdentifier name) (table ++ "." ++ name ++ ": a column name must match ^[a-z_][a-z0-9_]*$")
  let columns := nameSet entry.columns
  let foreignKeys ← entry.foreignKeys.mapM (parseForeignKey table columns)
  let scope ← parseScope table columns policy.scope vocabulary.dimensions
  let view := entry.view
  checkView table view scope
  let actions ← parseActions table vocabulary.actions policy.scope policy.actions
  let insert ← columnsOf table columns policy.insert "insert"
  let update ← columnsOf table columns policy.update "update"
  let version ← policy.version.mapM fun name => column table columns name "version"
  let createdBy ← policy.createdBy.mapM fun name => column table columns name "createdBy"
  let own ← parseColumnPolicies table columns vocabulary.actions view actions update policy.columns
  -- Every capability reads the key and the version: a page is ordered by the key, and a write answers both.
  refuseIf (scope.key.any fun key => policy.columns.keys.contains key)
    (table ++ ": the key " ++ scope.key.getD "" ++ " takes no action of its own")
  refuseIf (version.any fun version => policy.columns.keys.contains version)
    (table ++ ": the version " ++ version.getD "" ++ " takes no action of its own")
  let writable := !view && scope.key.isSome
  -- On a view, an empty insert or update list is refused too: it states a write the view never takes.
  refuseIf (view && (policy.insert.isSome || policy.update.isSome)) (viewWrite table)
  refuseIf (!writable && (insert ≠ [] || update ≠ [] || version.isSome || createdBy.isSome || own.writes.keys ≠ []
      || policy.queue.isSome || policy.files.isSome || actions.insert ≠ [] || actions.update ≠ [] || actions.delete ≠ []))
    (if view then viewWrite table else table ++ ": a " ++ scope.mode ++ " table is never written by a handler")
  let dates ← parseColumnSet table columns entry.dates "dates"
  let timestamps ← parseColumnSet table columns entry.timestamps "timestamps"
  let booleans ← parseColumnSet table columns entry.booleans "booleans"
  let json ← parseColumnSet table columns entry.json "json"
  let queue ← policy.queue.mapM fun input =>
    parseQueue table columns input timestamps version actions update own.writes
  let files ← policy.files.mapM fun files =>
    parseFileColumns table columns files (layerColumns scope version createdBy queue)
  return {
    name := table, scope, actions, columns
    visible := entry.columns.filter fun name => !inSet own.restricted name
    insert := nameSet insert, update := nameSet update, version, createdBy, queue
    files := files.getD ∅
    columnReads := own.reads, columnWrites := own.writes
    dates, timestamps, booleans, json, foreignKeys, view }

/-! ## What a policy allows -/

/-- Whether the table names `action`: one of its table actions, or a column's own write action. -/
def TableOf.namesAction {Scope : Type} (model : TableOf Scope) (action : String) : Bool :=
  includes model.actions.read action || includes model.actions.insert action || includes model.actions.update action
    || includes model.actions.delete action || model.columnWrites.entries.any fun entry => entry.2 = action

end Fabrika.Db.Policy
