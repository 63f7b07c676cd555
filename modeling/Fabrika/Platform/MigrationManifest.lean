/-
  Fabrika.Platform.MigrationManifest — migration-classify.ts, as far as the manifest goes: the
  changes a statement makes to the set of declared objects, the manifest they fold to, and the
  refusal of a second signature for a routine's name.

  A statement is given as what its tokens name. What the classifier reads of it beyond that (its
  expressions, its body, the forms it does not recognise) only refuses it: `refuses`.
-/

import Fabrika.Platform.Catalog

namespace Fabrika.Platform.Migrations

/-! ## Objects and changes -/

inductive DatabaseObjectKind
  | function
  | procedure
  | trigger
  | view
  | materializedView
  | rule
  | policy
  deriving DecidableEq

def DatabaseObjectKind.text : DatabaseObjectKind → List Char
  | .function => "function".toList
  | .procedure => "procedure".toList
  | .trigger => "trigger".toList
  | .view => "view".toList
  | .materializedView => "materialized view".toList
  | .rule => "rule".toList
  | .policy => "policy".toList

def RoutineKind.object : RoutineKind → DatabaseObjectKind
  | .function => .function
  | .procedure => .procedure

def OnTableKind.object : OnTableKind → DatabaseObjectKind
  | .trigger => .trigger
  | .rule => .rule
  | .policy => .policy

def ViewKind.object : ViewKind → DatabaseObjectKind
  | .view => .view
  | .materialized => .materializedView

/-- `name` is `<name>`, or `<table>.<name>` for a trigger, a rule and a policy. -/
structure DatabaseObject where
  kind : DatabaseObjectKind
  name : Name
  deriving DecidableEq

/-- How one statement changes the set of declared objects. -/
inductive ManifestChange
  | create (object : DatabaseObject)
  | drop (object : DatabaseObject)
  | dropTable (table : Name)
  | renameTable (old new : Name)
  | rename (old new : DatabaseObject)
  | createRoutine (object : DatabaseObject) (args : List Char)
  deriving DecidableEq

def dotted (table name : Name) : Name := table ++ '.' :: name

/-! ## The changes of a statement -/

/-- The name in the schema: unqualified or qualified with it, else refused. -/
def ownName (schema : Name) (object : ObjectName) : Option Name :=
  if object.qualifier.any (· ≠ schema) then none else some object.name

def declareObject (kind : DatabaseObjectKind) (name : Name) : List ManifestChange := [.create ⟨kind, name⟩]

def argsText (kind : RoutineKind) (args : List Char) : List Char := kind.object.text ++ " (".toList ++ args ++ ")".toList

def createFunction (schema : Name) (kind : RoutineKind) (object : ObjectName) (args : List Char) :
    Option (List ManifestChange) := do
  let name ← ownName schema object
  return [.createRoutine ⟨kind.object, name⟩ (argsText kind args)]

def createView (schema : Name) (kind : ViewKind) (object : ObjectName) : Option (List ManifestChange) := do
  let name ← ownName schema object
  return declareObject kind.object name

/-- `createTrigger`, `createRule` and `createPolicy`. -/
def createOnTable (schema : Name) (kind : OnTableKind) (name : Name) (object : ObjectName) : Option (List ManifestChange) := do
  let table ← ownName schema object
  return declareObject kind.object (dotted table name)

/-- `ALTER TABLE … RENAME TO`. -/
def alterTable (schema : Name) (object : ObjectName) (new : Name) : Option (List ManifestChange) := do
  let table ← ownName schema object
  return [.renameTable table new]

def alterRenameView (schema : Name) (kind : ViewKind) (object : ObjectName) (new : Name) : Option (List ManifestChange) := do
  let name ← ownName schema object
  return [.rename ⟨kind.object, name⟩ ⟨kind.object, new⟩]

def alterRenameRoutine (schema : Name) (word : RoutineWord) (object : ObjectName) (new : Name) :
    Option (List ManifestChange) := do
  let name ← ownName schema object
  return word.kinds.map fun kind => .rename ⟨kind.object, name⟩ ⟨kind.object, new⟩

/-- The new name keeps what stands before the first dot of the old one. -/
def alterRenameOnTable (schema : Name) (kind : OnTableKind) (own : Name) (object : ObjectName) (new : Name) :
    Option (List ManifestChange) := do
  let table ← ownName schema object
  let name := dotted table own
  let renamed := dotted (name.takeWhile (· ≠ '.')) new
  return [.rename ⟨kind.object, name⟩ ⟨kind.object, renamed⟩]

/-- The objects a `DROP` of one name removes from the manifest. -/
def dropNameChanges (schema : Name) (what : Droppable) (object : ObjectName) : List ManifestChange :=
  match ownName schema object with
  | none => []
  | some name =>
    match what with
    | .table => [.dropTable name]
    | .view kind => [.drop ⟨kind.object, name⟩]
    | .routine word => word.kinds.map fun kind => .drop ⟨kind.object, name⟩

def dropChanges (schema : Name) (what : Droppable) (names : List DropName) : List ManifestChange :=
  names.flatMap fun name => dropNameChanges schema what name.object

def dropOnTableChanges (kind : OnTableKind) (name : Name) (table : ObjectName) : List ManifestChange :=
  [.drop ⟨kind.object, dotted table.name name⟩]

/-- Whether a `DROP` names another schema. -/
def refuseForeignDdl (schema : Name) (names : List ObjectName) : Bool := names.any fun object => object.qualifier.any (· ≠ schema)

def classifyDrop (schema : Name) (names : List ObjectName) (changes : List ManifestChange) : Option (List ManifestChange) :=
  if refuseForeignDdl schema names then none else some changes

section
variable (schema : Name) (refuses : Statement → Bool)

/-- The changes of a statement; `none` where it is refused. -/
def classifyStatement (statement : Statement) : Option (List ManifestChange) :=
  if refuses statement then none
  else
    match statement with
    | .createTable name _ => (ownName schema name).map fun _ => []
    | .createRoutine kind name args _ => createFunction schema kind name args
    | .createView kind name _ _ => createView schema kind name
    | .createOnTable kind name table _ => createOnTable schema kind name table
    | .renameTable table new _ => alterTable schema table new
    | .renameView kind name new _ => alterRenameView schema kind name new
    | .renameRoutine word name _ new => alterRenameRoutine schema word name new
    | .renameOnTable kind name table new _ => alterRenameOnTable schema kind name table new
    | .drop what names _ _ => classifyDrop schema (names.map (·.object)) (dropChanges schema what names)
    | .dropOnTable kind name table _ _ => classifyDrop schema [table] (dropOnTableChanges kind name table)
    | .other _ => some []

inductive MigrationRefusal
  | statement (statement : Statement)
  /-- A second signature for the routine. -/
  | signature (name : Name)
  deriving DecidableEq

structure MigrationClassification where
  refused : List MigrationRefusal
  changes : List ManifestChange
  deriving DecidableEq

/-- A refused statement contributes only its refusal. -/
def classifyMigration (file : List Statement) : MigrationClassification :=
  ⟨(file.filter fun statement => (classifyStatement schema refuses statement).isNone).map .statement,
    file.flatMap fun statement => (classifyStatement schema refuses statement).getD []⟩

end

/-! ## The manifest -/

def objectKey (object : DatabaseObject) : List Char := object.kind.text ++ ' ' :: object.name

/-- A key that is there keeps its place. -/
def setObject (objects : List DatabaseObject) (object : DatabaseObject) : List DatabaseObject :=
  if objects.any fun other => objectKey other = objectKey object then
    objects.map fun other => if objectKey other = objectKey object then object else other
  else objects ++ [object]

def deleteObject (objects : List DatabaseObject) (object : DatabaseObject) : List DatabaseObject :=
  objects.filter fun other => objectKey other ≠ objectKey object

def DatabaseObjectKind.onTable : DatabaseObjectKind → Bool
  | .trigger | .rule | .policy => true
  | _ => false

/-- Whether an object's name begins with the table's and a dot. -/
def onTable (table : Name) (object : DatabaseObject) : Bool := object.kind.onTable && (dotted table []).isPrefixOf object.name

def renamedOnTable (old new : Name) (object : DatabaseObject) : DatabaseObject :=
  ⟨object.kind, new ++ object.name.drop old.length⟩

def applyChange (objects : List DatabaseObject) : ManifestChange → List DatabaseObject
  | .create object => setObject objects object
  | .createRoutine object _ => setObject objects object
  | .drop object => deleteObject objects object
  | .dropTable table => (objects.filter (onTable table)).foldl deleteObject objects
  | .rename old new =>
    if objects.any fun other => objectKey other = objectKey old then setObject (deleteObject objects old) new else objects
  | .renameTable old new =>
    (objects.filter (onTable old)).foldl (fun objects object =>
      setObject (deleteObject objects object) (renamedOnTable old new object)) objects

def migrationManifest (classifications : List MigrationClassification) : List DatabaseObject :=
  classifications.foldl (fun objects classification => classification.changes.foldl applyChange objects) []

/-! ## Overloads -/

abbrev Routines := List (Name × List Char)

namespace Routines

def get (routines : Routines) (name : Name) : Option (List Char) := (routines.find? (·.1 = name)).map (·.2)

def delete (routines : Routines) (name : Name) : Routines := routines.filter (·.1 ≠ name)

def set (routines : Routines) (name : Name) (args : List Char) : Routines := (name, args) :: delete routines name

end Routines

def DatabaseObjectKind.isRoutine : DatabaseObjectKind → Bool
  | .function | .procedure => true
  | _ => false

/-- A create whose argument list differs from the one the name has is refused. -/
def overloadStep (state : Routines × List MigrationRefusal) : ManifestChange → Routines × List MigrationRefusal
  | .createRoutine object args =>
    let refused := match Routines.get state.1 object.name with
      | none => []
      | some existing => if existing = args then [] else [.signature object.name]
    (Routines.set state.1 object.name args, state.2 ++ refused)
  | .drop object => (if object.kind.isRoutine then Routines.delete state.1 object.name else state.1, state.2)
  | .rename old new =>
    if old.kind.isRoutine then
      match Routines.get state.1 old.name with
      | none => (Routines.delete state.1 old.name, state.2)
      | some args => (Routines.set (Routines.delete state.1 old.name) new.name args, state.2)
    else state
  | _ => state

def refuseOverloadsFrom : Routines → List MigrationClassification → List MigrationClassification
  | _, [] => []
  | routines, file :: files =>
    let (routines, refused) := file.changes.foldl overloadStep (routines, file.refused)
    { file with refused := refused } :: refuseOverloadsFrom routines files

def refuseOverloads (classified : List MigrationClassification) : List MigrationClassification :=
  refuseOverloadsFrom [] classified

structure MigrationSetClassification where
  files : List MigrationClassification
  objects : List DatabaseObject

def classifyMigrations (schema : Name) (refuses : Statement → Bool) (files : List (List Statement)) :
    MigrationSetClassification :=
  let withOverloads := refuseOverloads (files.map (classifyMigration schema refuses))
  ⟨withOverloads, migrationManifest withOverloads⟩

end Fabrika.Platform.Migrations
