/-
  Fabrika.Platform.Catalog — what a migration's statements do to the tables, the views and the
  database code of the application's schema, as Postgres does it.

  A catalog holds what exists. Beside it stands what no longer does and a manifest may still list:
  what a `CASCADE` took, and what a `CREATE … IF NOT EXISTS` passed over (`stale`), each under the
  names it would have by now. A statement that Postgres fails has no catalog after it.

  Not modelled: indexes, types and sequences, and what depends on what: a `CASCADE` takes any
  entities with what it drops.
-/

import Mathlib.Data.List.Basic

namespace Fabrika.Platform.Migrations

abbrev Name := List Char

inductive RoutineKind
  | function
  | procedure
  deriving DecidableEq

inductive OnTableKind
  | trigger
  | rule
  | policy
  deriving DecidableEq

inductive ViewKind
  | view
  | materialized
  deriving DecidableEq

/-- The word of an `ALTER` or a `DROP` of a routine. -/
inductive RoutineWord
  | function
  | procedure
  | routine
  deriving DecidableEq

def RoutineWord.kinds : RoutineWord → List RoutineKind
  | .function => [.function]
  | .procedure => [.procedure]
  | .routine => [.function, .procedure]

/-! ## Statements -/

/-- A possibly schema-qualified name: `qualifier` is set only where the statement wrote one. -/
structure ObjectName where
  qualifier : Option Name
  name : Name
  deriving DecidableEq

inductive Droppable
  | table
  | view (kind : ViewKind)
  | routine (word : RoutineWord)
  deriving DecidableEq

/-- One name of a `DROP`, a routine's argument list included where it is written. -/
structure DropName where
  object : ObjectName
  args : Option (List Char)
  deriving DecidableEq

/-- A statement of a migration, as far as it names tables, views and database code. -/
inductive Statement
  | createTable (name : ObjectName) (ifNotExists : Bool)
  /-- `args` is the argument list as written, without its defaults. -/
  | createRoutine (kind : RoutineKind) (name : ObjectName) (args : List Char) (replace : Bool)
  | createView (kind : ViewKind) (name : ObjectName) (replace ifNotExists : Bool)
  | createOnTable (kind : OnTableKind) (name : Name) (table : ObjectName) (replace : Bool)
  | renameTable (table : ObjectName) (new : Name) (ifExists : Bool)
  | renameView (kind : ViewKind) (name : ObjectName) (new : Name) (ifExists : Bool)
  | renameRoutine (word : RoutineWord) (name : ObjectName) (args : Option (List Char)) (new : Name)
  | renameOnTable (kind : OnTableKind) (name : Name) (table : ObjectName) (new : Name) (ifExists : Bool)
  | drop (what : Droppable) (names : List DropName) (ifExists cascade : Bool)
  | dropOnTable (kind : OnTableKind) (name : Name) (table : ObjectName) (ifExists cascade : Bool)
  /-- Any other statement, which names none of them. -/
  | other (cascade : Bool)
  deriving DecidableEq

def Statement.cascades : Statement → Bool
  | .drop _ _ _ cascade => cascade
  | .dropOnTable _ _ _ _ cascade => cascade
  | .other cascade => cascade
  | _ => false

/-! ## The catalog -/

inductive RelationKind
  | table
  | view (kind : ViewKind)
  deriving DecidableEq

inductive Entity
  | relation (kind : RelationKind) (name : Name)
  | routine (kind : RoutineKind) (name : Name) (args : List Char)
  | attached (kind : OnTableKind) (relation name : Name)
  deriving DecidableEq

structure Catalog where
  live : List Entity
  stale : List Entity
  deriving DecidableEq

namespace Catalog

def empty : Catalog := ⟨[], []⟩

def hasRelation (c : Catalog) (name : Name) : Bool :=
  c.live.any fun
    | .relation _ other => other = name
    | _ => false

def add (c : Catalog) (entity : Entity) : Catalog := ⟨c.live ++ [entity], c.stale.filter (· ≠ entity)⟩

/-- The relation and, with it, what is attached to it. -/
def belongsTo (kind : RelationKind) (relation : Name) : Entity → Bool
  | .relation other name => other = kind && name = relation
  | .attached _ table _ => table = relation
  | .routine .. => false

def dropRelation (c : Catalog) (kind : RelationKind) (name : Name) : Catalog :=
  ⟨c.live.filter (!belongsTo kind name ·), c.stale.filter (· ≠ .relation kind name)⟩

def dropOne (c : Catalog) (entity : Entity) : Catalog := ⟨c.live.filter (· ≠ entity), c.stale.filter (· ≠ entity)⟩

/-- A stale entity has its name from before and from after. -/
def renameStale (c : Catalog) (move : Entity → Entity) : Catalog := { c with stale := c.stale ++ c.stale.map move }

def rename (c : Catalog) (move : Entity → Entity) : Catalog := ⟨c.live.map move, c.stale ++ c.stale.map move⟩

/-- A renamed relation, of a kind the statement may name, carries what is attached to it. -/
def moveRelation (kinds : RelationKind → Bool) (old new : Name) : Entity → Entity
  | .relation kind name => .relation kind (if kinds kind ∧ name = old then new else name)
  | .attached kind relation name => .attached kind (if relation = old then new else relation) name
  | .routine kind name args => .routine kind name args

def moveRoutine (word : RoutineWord) (old new : Name) : Entity → Entity
  | .routine kind name args => .routine kind (if kind ∈ word.kinds ∧ name = old then new else name) args
  | entity => entity

def moveAttached (kind : OnTableKind) (table old new : Name) : Entity → Entity
  | .attached other relation name =>
    .attached other relation (if other = kind ∧ relation = table ∧ name = old then new else name)
  | entity => entity

/-- What a `CASCADE` takes, and what is attached to the relations among it. -/
def takenWith (dependents : List Entity) (entity : Entity) : Bool :=
  dependents.any fun other =>
    other = entity || match other with
      | .relation kind name => belongsTo kind name entity
      | _ => false

def cascade (c : Catalog) (dependents : List Entity) : Catalog :=
  ⟨c.live.filter (!takenWith dependents ·), c.stale ++ c.live.filter (takenWith dependents ·)⟩

end Catalog

/-! ## What a statement does -/

section
variable (signature : List Char → List Char)

/-- The routines of a name and, where an argument list is written, of its signature. -/
def routinesOf (c : Catalog) (name : Name) (args : Option (List Char)) : List (RoutineKind × List Char) :=
  c.live.filterMap fun
    | .routine kind other otherArgs =>
      if other = name ∧ ∀ a ∈ args, signature a = signature otherArgs then some (kind, otherArgs) else none
    | _ => none

def executeCreate (c : Catalog) : Statement → Option Catalog
  | .createTable name ifNotExists =>
    if c.hasRelation name.name then (if ifNotExists then some c else none) else some (c.add (.relation .table name.name))
  | .createView kind name replace ifNotExists =>
    let view := Entity.relation (.view kind) name.name
    if view ∈ c.live && (replace || ifNotExists) then some c
    else if c.hasRelation name.name then (if ifNotExists then some { c with stale := c.stale ++ [view] } else none)
    else some (c.add view)
  | .createRoutine kind name args replace =>
    match routinesOf signature c name.name (some args) with
    | [] => some (c.add (.routine kind name.name args))
    | (other, otherArgs) :: _ =>
      if replace && other = kind then some ((c.dropOne (.routine kind name.name otherArgs)).add (.routine kind name.name args))
        else none
  | .createOnTable kind name table replace =>
    let entity := Entity.attached kind table.name name
    if !c.hasRelation table.name then none
    else if entity ∈ c.live then (if replace then some c else none)
    else some (c.add entity)
  | _ => none

def executeRename (c : Catalog) : Statement → Option Catalog
  | .renameTable table new ifExists =>
    -- A view is renamed so as well.
    if c.hasRelation table.name then
      if c.hasRelation new then none else some (c.rename (Catalog.moveRelation (fun _ => true) table.name new))
    else if ifExists then some (c.renameStale (Catalog.moveRelation (fun _ => true) table.name new))
    else none
  | .renameView kind name new ifExists =>
    if .relation (.view kind) name.name ∈ c.live then
      if c.hasRelation new then none else some (c.rename (Catalog.moveRelation (· = .view kind) name.name new))
    else if ifExists && !c.hasRelation name.name then some (c.renameStale (Catalog.moveRelation (· = .view kind) name.name new))
    else none
  | .renameRoutine word name args new =>
    match routinesOf signature c name.name args with
    | [(kind, otherArgs)] =>
      if kind ∈ word.kinds && (routinesOf signature c new (some otherArgs)).isEmpty then
        some ⟨c.live.map fun entity => if entity = .routine kind name.name otherArgs then .routine kind new otherArgs else entity,
          c.stale ++ c.stale.map (Catalog.moveRoutine word name.name new)⟩
      else none
    | _ => none
  | .renameOnTable kind name table new ifExists =>
    if .attached kind table.name name ∈ c.live then
      if .attached kind table.name new ∈ c.live then none else some (c.rename (Catalog.moveAttached kind table.name name new))
    else if ifExists then some (c.renameStale (Catalog.moveAttached kind table.name name new))
    else none
  | _ => none

def executeDropName (c : Catalog) (what : Droppable) (ifExists : Bool) (target : DropName) : Option Catalog :=
  let name := target.object.name
  match what with
  | .table =>
    if .relation .table name ∈ c.live then some (c.dropRelation .table name)
    else if ifExists && !c.hasRelation name then some c
    else none
  | .view kind =>
    if .relation (.view kind) name ∈ c.live then some (c.dropRelation (.view kind) name)
    else if ifExists && !c.hasRelation name then some c
    else none
  | .routine word =>
    match routinesOf signature c name target.args with
    | [] => if ifExists then some c else none
    | [(kind, args)] => if kind ∈ word.kinds then some (c.dropOne (.routine kind name args)) else none
    | _ => none

/-- The catalog after a statement, a `CASCADE` apart. -/
def execute (c : Catalog) (statement : Statement) : Option Catalog :=
  match statement with
  | .createTable .. | .createView .. | .createRoutine .. | .createOnTable .. => executeCreate signature c statement
  | .renameTable .. | .renameView .. | .renameRoutine .. | .renameOnTable .. => executeRename signature c statement
  | .drop what names ifExists _ => names.foldlM (fun c => executeDropName signature c what ifExists) c
  | .dropOnTable kind name table ifExists _ =>
    if .attached kind table.name name ∈ c.live then some (c.dropOne (.attached kind table.name name))
    else if ifExists then some c
    else none
  | .other _ => some c

/-- A run of statements, each with what its `CASCADE` took. -/
inductive Runs : Catalog → List Statement → Catalog → Prop
  | nil (c : Catalog) : Runs c [] c
  | cons {c c' c'' : Catalog} {statement : Statement} {rest : List Statement} (dependents : List Entity)
      (h : execute signature c statement = some c') (hcascade : statement.cascades = false → dependents = [])
      (hrest : Runs (c'.cascade dependents) rest c'') : Runs c (statement :: rest) c''

end

end Fabrika.Platform.Migrations
