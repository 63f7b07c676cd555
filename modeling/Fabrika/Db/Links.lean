/-
  Fabrika.Db.Links — policy.ts, the containment of all tables together: `linkTables` and the
  chain it resolves for each, through the owners of dimensions, past the dimensions no table
  owns, and through a child's parent.

  `resolve` keeps what it resolved, as the source does, and refuses a table it meets on its own
  path; a path repeats no table before that, so the fuel of `linkTables` outlasts it.
-/

import Fabrika.Db.Policy

namespace Fabrika.Db.Links

open Fabrika.Db.Policy

/-- One table's policy, checked against its column list and linked to the others. -/
structure TableModel extends TableOf ScopeModel where
  /-- The links this table carries a column for, nearest first. -/
  chain : List Container

/-- A table's scope with nothing left to derive, and its chain. -/
structure Resolved where
  scope : ScopeModel
  chain : List Container
  deriving DecidableEq

def TableOf.linked (table : ParsedTable) (resolved : Resolved) : TableModel :=
  { table with scope := resolved.scope, chain := resolved.chain }

/-- What `resolve` knows so far, by table. -/
abbrev Known := Record Resolved

abbrev Link := StateT Known Parse

/-! ## Foreign keys -/

/-- Each column of the key with the column it references. -/
def ForeignKey.pairs (key : ForeignKey) : List (String × String) := key.columns.zip key.references

/-- Every foreign key names a table of the column list and columns it has. -/
def checkForeignKeys (table : ParsedTable) (byName : Record ParsedTable) : Parse Unit :=
  table.foreignKeys.forM fun key =>
    match byName.lookup key.table with
    | none =>
      throw (table.name ++ ": a foreign key references " ++ key.table ++ ", which is not a table of the column list")
    | some target =>
      key.references.forM fun referenced =>
        refuseIf (!inSet target.columns referenced)
          (table.name ++ ": a foreign key references " ++ key.table ++ "." ++ referenced ++ ", which is not a column")

/-- Whether a foreign key of `table` takes `column` to `key` of `target`, alone or as part of
    a composite key. -/
def references (table : ParsedTable) (column target key : String) : Bool :=
  table.foreignKeys.any fun foreignKey =>
    foreignKey.table = target && (ForeignKey.pairs foreignKey).contains (column, key)

def ownerKey (owner : ParsedTable) : String :=
  match owner.scope with
  | .dimension _ key _ => key
  | _ => ""

/-- A containment column is a foreign key to the key of the table that owns the container. -/
def requireReference (table : ParsedTable) (link : Container) (owner : ParsedTable) (fix : String → String) :
    Parse Unit :=
  let key := ownerKey owner
  if references table link.column owner.name key then pure ()
  else
    let hint := match table.columns.filter fun name => references table name owner.name key with
      | [only] => "state " ++ fix only
      | _ => "add a foreign key from " ++ link.column ++ " to " ++ owner.name ++ " (" ++ key ++ ") in a migration"
    throw (table.name ++ ": " ++ link.column ++ " is not a foreign key to " ++ owner.name ++ "." ++ key ++ ", which owns "
      ++ link.dimension ++ "; " ++ hint)

/-- Whether every pair is a column of the key with that referenced column. -/
def coversPairs (key : ForeignKey) (pairs : List (String × String)) : Bool :=
  pairs.all fun pair => (ForeignKey.pairs key).contains pair

/-- The containment column with the owner's key, and each inherited column with itself. -/
def coveredPairs (link : Container) (key : String) (ownerChain : List Container) : List (String × String) :=
  (link.column, key) :: ownerChain.map fun inherited => (inherited.column, inherited.column)

/-- The columns a row inherits from its owner's chain are bound to the owner's own values by
    one composite key, with the containment column. -/
def requireCoveringKey (table : ParsedTable) (link : Container) (owner : ParsedTable) (ownerChain : List Container) :
    Parse Unit :=
  if ownerChain = [] then pure ()
  -- The chain check refuses a missing column itself, with the message that names it.
  else if ownerChain.any fun inherited => !inSet table.columns inherited.column then pure ()
  else
    let pairs := coveredPairs link (ownerKey owner) ownerChain
    if table.foreignKeys.any fun key => key.table = owner.name && coversPairs key pairs then pure ()
    else
      let columns := ", ".intercalate (pairs.map Prod.fst)
      let referenced := ", ".intercalate (pairs.map Prod.snd)
      throw (table.name ++ ": " ++ link.column ++ " and the chain it inherits must be one foreign key to " ++ owner.name
        ++ ", so a row lies where its " ++ link.dimension ++ " lies; add foreign key (" ++ columns ++ ") references "
        ++ owner.name ++ " (" ++ referenced ++ ") in a migration, with unique (" ++ referenced ++ ") on " ++ owner.name)

/-! ## Stamps -/

structure Stamp where
  column : String
  role : String
  /-- An insert may set it: a queue row's first due time. -/
  insertable : Bool := false
  deriving DecidableEq

/-- The columns the layer writes itself: the key, every containment link, the version, the
    creator and the queue's. -/
def stampsOf (table : ParsedTable) (chain : List Container) : List Stamp :=
  (table.scope.key.map fun key => (⟨key, "the key", false⟩ : Stamp)).toList
  ++ chain.map (fun link => (⟨link.column, "the " ++ link.dimension ++ " containment column", false⟩ : Stamp))
  ++ (table.version.map fun version => (⟨version, "the version", false⟩ : Stamp)).toList
  ++ (table.createdBy.map fun creator => (⟨creator, "createdBy", false⟩ : Stamp)).toList
  ++ (table.queue.map fun queue =>
      ([⟨queue.attempts, "queue.attempts", false⟩, ⟨queue.due, "queue.due", true⟩] : List Stamp)).getD []

/-- One stamp against those before it: a shared column would let one overwrite another. -/
def checkStamp (table : ParsedTable) (earlier : List Stamp) (stamp : Stamp) : Parse Unit :=
  -- Nothing writes a view, so its key may be its parent column; a predicate still compares each.
  if table.view then
    if inSet table.json stamp.column then
      throw (table.name ++ ": " ++ stamp.column ++ " is a JSON column, which no predicate compares as " ++ stamp.role
        ++ "; give it a scalar type")
    else pure ()
  else
    match earlier.find? fun other => other.column = stamp.column with
    | some other =>
      throw (table.name ++ ": " ++ stamp.column ++ " is both " ++ other.role ++ " and " ++ stamp.role
        ++ "; the layer stamps each, so they need distinct columns")
    | none =>
      if (!stamp.insertable && inSet table.insert stamp.column) || inSet table.update stamp.column then
        throw (table.name ++ ": " ++ stamp.column ++ " is stamped by the layer; remove it from insert and update")
      else if table.columnWrites.keys.contains stamp.column then
        throw (table.name ++ ": " ++ stamp.column ++ " is stamped by the layer; it takes no write action of its own")
      else if inSet table.json stamp.column then
        throw (table.name ++ ": " ++ stamp.column ++ " is a JSON column, which the layer cannot stamp as " ++ stamp.role
          ++ "; give it a scalar type")
      else pure ()

def checkStampsFrom (table : ParsedTable) (earlier : List Stamp) : List Stamp → Parse Unit
  | [] => pure ()
  | stamp :: rest => do
    checkStamp table earlier stamp
    checkStampsFrom table (earlier ++ [stamp]) rest

def checkStamps (table : ParsedTable) (chain : List Container) : Parse Unit :=
  checkStampsFrom table [] (stampsOf table chain)

/-! ## Chains -/

/-- A child's column for its parent defaults to `<parent dimension>_id`. -/
def parentColumn (table : ParsedTable) (column parent : String) : Parse String :=
  if inSet table.columns column then pure column
  else
    throw (table.name ++ ": scope.column defaults to " ++ column ++ " (the key of its parent " ++ parent
      ++ "), which is not a column; state scope.column (columns: " ++ listed table.columns ++ ")")

section Resolve

variable (byName owners : Record ParsedTable) (containment : Containment)

/-- The links above `dimension`: the chain of the table that owns it, whose ancestors' columns
    a contained row carries under the same names; past a dimension no table owns, the
    vocabulary's ancestry on the `<dimension>_id` convention. -/
def above (chainOf : ParsedTable → Link (List Container)) : Nat → String → Link (List Container)
  | fuel, dimension =>
    match owners.lookup dimension with
    | some owner => chainOf owner
    | none =>
      match containerOf containment dimension with
      | none => pure []
      | some container =>
        match fuel with
        | 0 => throw (cycleMessage [dimension, container])
        | fuel + 1 => do
          let rest ← above chainOf fuel container
          return ⟨container, container ++ "_id"⟩ :: rest

/-- Of `scope.inherit`: exactly the columns of the parent's chain, in any order. -/
def inheritsChain (inherit expected : List String) : Bool :=
  inherit.length = expected.length && (nameSet inherit).length = expected.length
    && expected.all fun column => inSet (nameSet inherit) column

/-- A child's `scope.column`, or its default. -/
def childColumn (table : ParsedTable) (dimension parentName : String) : Option String → Parse String
  | some column => pure column
  | none => parentColumn table (dimension ++ "_id") parentName

/-- A view has no foreign key: its SQL alone states its containment, and the approver reviews it. -/
def requireParent (table : ParsedTable) (link : Container) (parent : ParsedTable) (parentChain : List Container) :
    Parse Unit :=
  if table.view then pure ()
  else do
    requireReference table link parent fun name => "scope.column: '" ++ name ++ "'"
    requireCoveringKey table link parent parentChain

def checkInherit (table : ParsedTable) (parentName : String) (inherit expected : List String) : Parse Unit :=
  if inheritsChain inherit expected then pure ()
  else
    throw (table.name ++ ": must inherit exactly the containment columns of " ++ parentName ++ " ("
      ++ (if expected = [] then "none" else listed expected) ++ "), so a composite foreign key keeps it in scope")

def resolveChild (table : ParsedTable) (chainOf : ParsedTable → Link (List Container)) (parentName key : String)
    (column : Option String) (inherit : Option (List String)) (parent : ParsedTable) (dimension : String) :
    Link Resolved := do
  let parentChain ← chainOf parent
  let expected := parentChain.map Container.column
  let inherit := inherit.getD expected
  (checkInherit table parentName inherit expected : Parse Unit)
  let column ← (childColumn table dimension parentName column : Parse String)
  let link : Container := ⟨dimension, column⟩
  (requireParent table link parent parentChain : Parse Unit)
  return ⟨.child parentName key column inherit, link :: parentChain⟩

def resolveContained (table : ParsedTable) (chainOf : ParsedTable → Link (List Container)) (dimension key : String)
    (container : Container) : Link Resolved := do
  match owners.lookup container.dimension with
  | some owner =>
    (requireReference table container owner fun name => "scope.in: \x7b column: '" ++ name ++ "' \x7d" : Parse Unit)
    let ownerChain ← chainOf owner
    (requireCoveringKey table container owner ownerChain : Parse Unit)
  | none => pure ()
  let rest ← above owners containment chainOf containment.keys.length container.dimension
  return ⟨.dimension dimension key (some container), container :: rest⟩

def resolveChain (table : ParsedTable) (chainOf : ParsedTable → Link (List Container)) : Link Resolved :=
  match table.scope with
  | .dimension dimension key none => pure ⟨.dimension dimension key none, []⟩
  | .dimension dimension key (some container) => resolveContained owners containment table chainOf dimension key container
  | .reference reason => pure ⟨.reference reason, []⟩
  | .app reason key => pure ⟨.app reason key, []⟩
  | .child parentName key column inherit =>
    match byName.lookup parentName with
    | some parent =>
      match parent.scope with
      | .dimension dimension _ _ => resolveChild table chainOf parentName key column inherit parent dimension
      | _ => throw (table.name ++ ": the parent " ++ parentName ++ " must be a dimension table")
    | none => throw (table.name ++ ": the parent " ++ parentName ++ " must be a dimension table")

/-- A row carries its whole chain. -/
def checkCarried (table : ParsedTable) (chain : List Container) : Parse Unit :=
  match chain.find? fun link => !inSet table.columns link.column with
  | some link =>
    throw (table.name ++ ": must carry " ++ link.column ++ ", because it lies in " ++ link.dimension
      ++ "; a row carries its whole containment chain")
  | none => pure ()

def resolve : Nat → List String → ParsedTable → Link Resolved
  | fuel, visiting, table => do
    let known ← get
    match known.lookup table.name with
    | some resolved => return resolved
    | none =>
      let path := visiting ++ [table.name]
      let cycle := table.name ++ ": its containment is a cycle (" ++ " → ".intercalate path ++ ")"
      if includes visiting table.name then throw cycle
      match fuel with
      | 0 => throw cycle
      | fuel + 1 =>
        let result ← resolveChain byName owners containment table fun next => do
          let resolved ← resolve fuel path next
          return resolved.chain
        (checkCarried table result.chain : Parse Unit)
        (checkStamps table result.chain : Parse Unit)
        modify fun known => known.insert table.name result
        return result

end Resolve

/-! ## All tables -/

/-- `byName`. -/
def tablesByName (parsed : List ParsedTable) : Record ParsedTable :=
  parsed.foldl (fun byName table => byName.insert table.name table) ∅

/-- `owners`: a dimension is owned by one table. -/
def ownersOf (parsed : List ParsedTable) : Parse (Record ParsedTable) :=
  parsed.foldlM (fun owners table =>
    match table.scope with
    | .dimension dimension _ _ =>
      match owners.lookup dimension with
      | some owner => throw (table.name ++ ": dimension " ++ dimension ++ " is already owned by " ++ owner.name)
      | none => pure (owners.insert dimension table)
    | _ => pure owners) ∅

def resolveAll (byName owners : Record ParsedTable) (containment : Containment) (fuel : Nat) :
    List ParsedTable → Link (List TableModel)
  | [] => pure []
  | table :: rest => do
    let resolved ← resolve byName owners containment fuel [] table
    let models ← resolveAll byName owners containment fuel rest
    return TableOf.linked table resolved :: models

/-- Resolves every table's chain and refuses a shape the layer cannot enforce. -/
def linkTables (parsed : List ParsedTable) (containment : Containment) : Parse (List TableModel) := do
  let byName := tablesByName parsed
  let owners ← ownersOf parsed
  parsed.forM fun table => checkForeignKeys table byName
  let (models, _) ← (resolveAll byName owners containment (parsed.length + 1) parsed).run ∅
  return models

def parseEach (policies : Record TablePolicy) (vocabulary : Vocabulary) :
    List (Sigma fun _ : String => TableColumns) → Parse (List ParsedTable)
  | [] => pure []
  | ⟨table, entry⟩ :: rest =>
    match policies.lookup table with
    | none =>
      -- A view without a policy: only `ctx.sql` reads it.
      if entry.view then parseEach policies vocabulary rest
      else throw (table ++ ": every table needs a policy in tables.ts")
    | some policy => do
      let parsed ← parseTable table entry policy vocabulary
      let others ← parseEach policies vocabulary rest
      return parsed :: others

/-- The tables' models, in the order of the column list. -/
def parseTables (columns : Record TableColumns) (policies : Record TablePolicy) (vocabulary : Vocabulary) :
    Parse (List TableModel) := do
  policies.keys.forM fun table =>
    refuseIf (!columns.keys.contains table)
      (table ++ ": no such table in the column list (tables: " ++ listed columns.keys ++ ")")
  let parsed ← parseEach policies vocabulary columns.entries
  linkTables parsed vocabulary.dimensions

/-- `defineTables` and `readTables`: the vocabulary is parsed first. -/
def readTables (columns : Record TableColumns) (policies : Record TablePolicy) (vocabulary : Vocabulary) :
    Parse (List TableModel) := do
  let vocabulary ← parseVocabulary vocabulary
  parseTables columns policies vocabulary

end Fabrika.Db.Links
