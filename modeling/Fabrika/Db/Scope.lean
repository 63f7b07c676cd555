/-
  Fabrika.Db.Scope — what a capability reaches of a table, twice: the operation node the
  handles put in a statement (store.ts, orm.ts and links.ts) and the column tests `ctx.sql.scope`
  splices into an author's text (`scopeTerms` in store.ts, `scopeFragment` in sql.ts).

  A capability is what its authority resolved it to, a grant. A refusal is a `CapabilityError`,
  its reason and its message.
-/

import Fabrika.Db.Links
import Fabrika.Db.Nodes
import Mathlib

namespace Fabrika.Db.Scope

open Fabrika.Lib Fabrika.Db.Policy Fabrika.Db.Links Fabrika.Db.SqlText
open Fabrika.Db.Nodes (OperationNode everything allOf anyOf inList)

/-! ## Grants and refusals -/

structure RefGrant where
  dimension : String
  action : String
  principal : String
  id : String
  /-- The values of the containers the object lies in, by dimension. -/
  chain : Record String

structure ContainerGrant where
  dimension : String
  values : List String
  deriving DecidableEq

inductive ScopeValues
  | all
  | values (values : List String)
  deriving DecidableEq

structure WithinGrant where
  dimension : String
  action : String
  principal : String
  values : ScopeValues
  /-- The containers of `dimension` whose grants also authorise this one. -/
  containers : List ContainerGrant
  /-- The dimensions inside `dimension` in which the caller holds the action. -/
  contained : List ContainerGrant
  deriving DecidableEq

inductive CapabilityGrant
  | ref (grant : RefGrant)
  | within (grant : WithinGrant)
  | app (action principal : String)
  | row (table action principal id : String) (chain : Record String)

def CapabilityGrant.action : CapabilityGrant → String
  | .ref grant => grant.action
  | .within grant => grant.action
  | .app action _ => action
  | .row _ action _ _ _ => action

def describeGrant : CapabilityGrant → String
  | .app _ _ => "an app capability"
  | .row table _ _ _ _ => "a row of " ++ table
  | .ref grant => "a Ref of " ++ grant.dimension
  | .within grant => "a Within of " ++ grant.dimension

inductive Reason
  | wrongCapability
  | wrongAction
  | outOfReach
  | unenforceable
  | undeclaredOperation
  | tableKind
  | withinSize
  | statementShape
  deriving DecidableEq

structure CapabilityError where
  reason : Reason
  message : String
  deriving DecidableEq

abbrev Checked := Except CapabilityError

def refuse {α : Type} (reason : Reason) (message : String) : Checked α := throw ⟨reason, message⟩

/-! ## A Ref over links -/

structure LinkValue where
  link : Container
  value : String
  deriving DecidableEq

/-- The column values a Ref addresses over `links`: the first link takes the Ref's id, every
    other a value of its chain. A chain entry no link covers cannot be enforced. -/
def linkValues (table : String) (links : List Container) (grant : RefGrant) : Checked (List LinkValue) :=
  match links with
  | [] => refuse .outOfReach (table ++ " has no containment link for a Ref of " ++ grant.dimension)
  | first :: rest =>
    match grant.chain.keys.find? fun dimension => !(rest.map Container.dimension).contains dimension with
    | some dimension =>
      refuse .unenforceable ("the Ref of " ++ grant.dimension ++ " lies in " ++ dimension ++ ", which " ++ table
        ++ " carries no column for; the layer cannot enforce it")
    | none => do
      let others ← rest.mapM fun link =>
        match grant.chain.lookup link.dimension with
        | some value => pure (⟨link, value⟩ : LinkValue)
        | none => refuse .outOfReach ("the Ref of " ++ grant.dimension ++ " carries no " ++ link.dimension ++ " in its chain")
      return ⟨first, grant.id⟩ :: others

def linksPredicate (table : String) (values : List LinkValue) : Checked OperationNode :=
  match allOf (values.map fun entry => Nodes.equals table entry.link.column (.text entry.value)) with
  | some node => pure node
  | none => refuse .statementShape "an empty conjunction"

/-- The object a Ref of the table's own dimension names, with every link of its chain. -/
def selfLinks (model : TableModel) : Checked (List Container) :=
  match model.scope with
  | .dimension dimension key _ => pure (⟨dimension, key⟩ :: model.chain)
  | _ => refuse .tableKind (model.name ++ " is not a dimension table")

/-! ## A Within -/

def linkOf (links : List Container) (dimension : String) : Option Container :=
  links.find? fun link => link.dimension = dimension

/-- The chain links above the `Within`'s own dimension: the only columns a container grant may
    filter on. -/
def linksAboveOf (dimension : String) : List Container → List Container
  | [] => []
  | link :: rest => if link.dimension = dimension then rest else linksAboveOf dimension rest

def linksAbove (model : TableModel) (dimension : String) : List Container := linksAboveOf dimension model.chain

/-- The links before the first of `dimension`; none where there is none. -/
def linksBelowOf (dimension : String) : List Container → Option (List Container)
  | [] => none
  | link :: rest => if link.dimension = dimension then some [] else (linksBelowOf dimension rest).map (link :: ·)

/-- The links of a row inside the `Within`'s own dimension: the object itself for a dimension
    table, and the chain links nearer than `dimension`. -/
def linksBelow (model : TableModel) (dimension : String) : List Container :=
  let links := match model.scope with
    | .dimension own key _ => ⟨own, key⟩ :: model.chain
    | _ => model.chain
  (linksBelowOf dimension links).getD []

structure ColumnTest where
  column : String
  values : List String
  deriving DecidableEq

/-- One test per contained grant on a link inside the `Within`'s dimension. A grant on a
    dimension the table carries no link of admits none of its rows; one on the `Within`'s
    dimension or above it is refused. -/
def containedTests (model : TableModel) (grant : WithinGrant) : Checked (List ColumnTest) := do
  let below := linksBelow model grant.dimension
  let above := linksAbove model grant.dimension
  let tests ← grant.contained.mapM fun contained =>
    if contained.dimension = grant.dimension || (linkOf above contained.dimension).isSome then
      refuse .unenforceable ("the Within of " ++ grant.dimension ++ " carries a grant on " ++ contained.dimension
        ++ ", which does not lie inside " ++ grant.dimension ++ " in " ++ model.name)
    else
      match linkOf below contained.dimension with
      | some link => if contained.values = [] then pure none else pure (some (⟨link.column, contained.values⟩ : ColumnTest))
      | none => pure none
  return tests.filterMap id

/-- One test per container grant, each on its own column. -/
def containerTests (model : TableModel) (grant : WithinGrant) : Checked (List ColumnTest) := do
  let above := linksAbove model grant.dimension
  let tests ← grant.containers.mapM fun container =>
    match linkOf above container.dimension with
    | none =>
      refuse .unenforceable ("the Within of " ++ grant.dimension ++ " reaches through " ++ container.dimension ++ ", which "
        ++ model.name ++ " carries no column for above " ++ grant.dimension ++ "; the layer cannot enforce it")
    | some link => if container.values = [] then pure none else pure (some (⟨link.column, container.values⟩ : ColumnTest))
  return tests.filterMap id

def maxWithinValues : Nat := 1000

/-- Every scope value a `Within` carries: its own, its containers' and its contained
    dimensions'. -/
def withinCount (grant : WithinGrant) : Nat :=
  match grant.values with
  | .all => 0
  | .values values =>
    values.length + (grant.containers.map fun container => container.values.length).sum
      + (grant.contained.map fun contained => contained.values.length).sum

def checkSize (grant : WithinGrant) : Checked Unit :=
  if maxWithinValues < withinCount grant then
    refuse .withinSize ("a Within carries at most " ++ toString maxWithinValues ++ " scope values; this one carries "
      ++ toString (withinCount grant))
  else pure ()

def ownTests (column : String) (values : List String) : List ColumnTest :=
  if values = [] then [] else [⟨column, values⟩]

/-- `column in (values) or <container column> in (container values) …`. An empty `Within` has
    no predicate: the caller answers `[]` without a query. -/
def withinPredicate (model : TableModel) (column : String) (grant : WithinGrant) : Checked (Option OperationNode) :=
  match grant.values with
  | .all => pure (some everything)
  | .values values => do
    let containers ← containerTests model grant
    let contained ← containedTests model grant
    checkSize grant
    return anyOf ((ownTests column values ++ containers ++ contained).map fun test => inList model.name test.column test.values)

/-! ## The handles -/

def requiredActions (model : TableModel) : Checked (List String) :=
  if model.actions.read = [] then
    refuse .undeclaredOperation (model.name ++ " allows no read; its policy declares no read action")
  else pure model.actions.read

/-- Of a read: the table's read actions. -/
def checkAction (model : TableModel) (action : String) : Checked Unit := do
  let actions ← requiredActions model
  if includes actions action then pure ()
  else
    refuse .wrongAction ("read on " ++ model.name ++ " requires " ++ " or ".intercalate actions ++ "; the capability holds "
      ++ action)

/-- The column that places a row in `dimension`: that link's, or a top-level table's own key. -/
def reachColumn (model : TableModel) (dimension : String) : Option String :=
  match model.scope with
  | .dimension own key none =>
    if own = dimension then some key else (linkOf model.chain dimension).map Container.column
  | _ => (linkOf model.chain dimension).map Container.column

/-- Rows of a table a `Within` of any dimension of its chain lists, by its read action. -/
def reachPredicate (model : TableModel) (capability : CapabilityGrant) : Checked (Option OperationNode) :=
  match capability with
  | .within grant => do
    checkAction model grant.action
    match reachColumn model grant.dimension with
    | none =>
      refuse .outOfReach ("a Within of " ++ grant.dimension ++ " does not reach " ++ model.name
        ++ ": its containment chain does not hold " ++ grant.dimension)
    | some name => withinPredicate model name grant
  | other => refuse .wrongCapability ("a list of " ++ model.name ++ " needs a Within, got " ++ describeGrant other)

/-- A `Ref` of `dimension` whose action the table names. -/
def namedRef (model : TableModel) (capability : CapabilityGrant) (dimension : String) : Checked RefGrant :=
  match capability with
  | .ref grant =>
    if grant.dimension ≠ dimension then
      refuse .wrongCapability ("a read of " ++ model.name ++ " here needs a Ref of " ++ dimension ++ ", got "
        ++ describeGrant capability)
    else if model.namesAction grant.action then pure grant
    else
      refuse .wrongAction (model.name ++ " does not name the action '" ++ grant.action
        ++ "': read it from an endpoint whose action " ++ model.name ++ " names, or declare unscoped")
  | other =>
    refuse .wrongCapability ("a read of " ++ model.name ++ " here needs a Ref of " ++ dimension ++ ", got "
      ++ describeGrant other)

/-- The predicate of the target object, over the whole chain its `Ref` carries. -/
def targetPredicate (model : TableModel) (grant : RefGrant) : Checked OperationNode := do
  let links ← selfLinks model
  let values ← linkValues model.name links grant
  linksPredicate model.name values

/-- The rows of a child under the parent the Ref names, and of a dimension table in the
    container it names. -/
def parentPredicate (model : TableModel) (grant : RefGrant) : Checked OperationNode := do
  let values ← linkValues model.name model.chain grant
  linksPredicate model.name values

/-- `ctx.db.target(ref).get()`. -/
def targetRead (model : TableModel) (capability : CapabilityGrant) (dimension : String) : Checked OperationNode := do
  let grant ← namedRef model capability dimension
  targetPredicate model grant

/-- The `list` of a child of the target, and of a table the target contains. -/
def subtreeRead (model : TableModel) (capability : CapabilityGrant) (dimension : String) : Checked OperationNode := do
  let grant ← namedRef model capability dimension
  parentPredicate model grant

/-! ## `ctx.sql.scope` -/

inductive ScopeUse
  | read
  | update
  | delete
  deriving DecidableEq

inductive TestValue
  | one (value : String)
  | list (values : List String)
  deriving DecidableEq

structure ScopeTest where
  column : String
  value : TestValue
  deriving DecidableEq

inductive ScopeTerms
  | all
  | groups (groups : List (List ScopeTest))
  deriving DecidableEq

/-- Every action that updates a column: the update actions and each column's own. -/
def updateActions (model : TableModel) : List String :=
  (model.actions.update ++ model.columnWrites.entries.map fun entry => entry.2).eraseDups

def orList (names : List String) : String := " or ".intercalate names

/-- A fragment its author marks as an UPDATE or DELETE target: the capability's action is that
    operation's, or for an UPDATE a column's own. -/
def checkWriteTarget (model : TableModel) (grant : CapabilityGrant) (update : Bool) : Checked Unit :=
  let use := if update then "update" else "delete"
  let statement := (if update then "UPDATE" else "DELETE") ++ " of " ++ model.name
  let actions := if update then model.actions.update else model.actions.delete
  let columnWrites := if update then (updateActions model).filter fun write => !includes actions write else []
  let isApp := match grant with
    | .app _ _ => true
    | _ => false
  let appTable := match model.scope with
    | .app _ _ => true
    | _ => false
  if isApp && !appTable then
    refuse .tableKind ("an app capability writes application tables only: " ++ statement ++ " needs a Ref or a Within")
  else if !isApp && appTable then
    refuse .tableKind ("a scoped site writes no application table: " ++ statement ++ " needs the capability of an app endpoint")
  else if includes actions grant.action then pure ()
  else if actions = [] && columnWrites = [] then
    refuse .undeclaredOperation (statement ++ ": its policy declares no " ++ use ++ " action")
  else if includes columnWrites grant.action then pure ()
  else
    let needs := (if actions = [] then [] else ["its " ++ use ++ " action " ++ orList actions])
      ++ (if columnWrites = [] then [] else ["a column's own write action (" ++ listed columnWrites ++ ")"])
    refuse .wrongAction (statement ++ " needs " ++ orList needs ++ "; the capability holds " ++ grant.action)

/-- Refuses an `app` capability whose action does not read the table's rows. -/
def checkAppReach (model : TableModel) (action : String) : Checked Unit :=
  let reach := "its read action " ++ orList model.actions.read
    ++ (if model.actions.appRead = [] then "" else " or one of its appRead (" ++ listed model.actions.appRead ++ ")")
  match model.scope with
  | .app _ _ =>
    if model.namesAction action then pure ()
    else
      refuse .wrongAction ("an app capability of " ++ action ++ " does not reach " ++ model.name ++ ": " ++ model.name
        ++ " does not name the action")
  | .reference _ =>
    refuse .tableKind ("an app capability does not reach " ++ model.name
      ++ ": ctx.db.app lists application, dimension and child tables only")
  | _ =>
    if includes model.actions.read action || includes model.actions.appRead action then pure ()
    else if includes model.actions.appCount action then
      refuse .wrongAction ("an app capability of " ++ action ++ " only counts " ++ model.name
        ++ " (its appCount): it reads no row, so list, aggregate and a scope fragment need " ++ reach)
    else
      refuse .wrongAction ("an app capability of " ++ action ++ " does not reach " ++ model.name ++ ": ctx.db.app lists it for "
        ++ reach ++ " only")

/-- A scoped site's read of an application table. -/
def scopedApplicationRead (model : TableModel) (grant : CapabilityGrant) : Checked Unit := do
  let read ← requiredActions model
  if includes read grant.action then pure ()
  else
    refuse .wrongAction ("a scoped site reads " ++ model.name ++ " with its read action " ++ orList read
      ++ " only; the capability holds " ++ grant.action)

/-- The links from the first of `dimension` on. -/
def linksFrom (dimension : String) : List Container → Option (List Container)
  | [] => none
  | link :: rest => if link.dimension = dimension then some (link :: rest) else linksFrom dimension rest

/-- The links a Ref is looked for in. -/
def refLinks (model : TableModel) : List Container :=
  match model.scope with
  | .dimension dimension key _ => ⟨dimension, key⟩ :: model.chain
  | _ => model.chain

def refTerms (model : TableModel) (use : ScopeUse) (grant : RefGrant) : Checked ScopeTerms :=
  match linksFrom grant.dimension (refLinks model) with
  | none =>
    refuse .outOfReach ("a Ref of " ++ grant.dimension ++ " does not reach " ++ model.name
      ++ ": its containment chain does not hold " ++ grant.dimension)
  | some reached =>
    if use = .read && !model.namesAction grant.action then
      refuse .wrongAction (model.name ++ " does not name the action " ++ grant.action
        ++ ": a Ref reads it with an action it names")
    else do
      let values ← linkValues model.name reached grant
      return .groups [values.map fun entry => ⟨entry.link.column, .one entry.value⟩]

def withinTerms (model : TableModel) (use : ScopeUse) (grant : WithinGrant) : Checked ScopeTerms :=
  match reachColumn model grant.dimension with
  | none =>
    refuse .outOfReach ("a Within of " ++ grant.dimension ++ " does not reach " ++ model.name
      ++ ": its containment chain does not hold " ++ grant.dimension)
  | some name =>
    if use = .read && !includes model.actions.read grant.action then
      refuse .wrongAction ("a Within of " ++ grant.action ++ " does not read " ++ model.name
        ++ ": it reads with its read action " ++ orList model.actions.read)
    else
      match grant.values with
      | .all => pure .all
      | .values values => do
        let containers ← containerTests model grant
        let contained ← containedTests model grant
        checkSize grant
        return .groups ((ownTests name values ++ containers ++ contained).map fun test => [⟨test.column, .list test.values⟩])

def checkUse (model : TableModel) (grant : CapabilityGrant) : ScopeUse → Checked Unit
  | .read => pure ()
  | .update => checkWriteTarget model grant true
  | .delete => checkWriteTarget model grant false

/-- An `app` capability's action is held as a global grant, so its scope is every row of a
    table it reaches. -/
def appTerms (model : TableModel) (action : String) (use : ScopeUse) : Checked ScopeTerms :=
  if use = .read then do
    checkAppReach model action
    return .all
  else pure .all

def applicationTerms (model : TableModel) (grant : CapabilityGrant) : Checked ScopeTerms := do
  scopedApplicationRead model grant
  return .all

/-- `ctx.sql.scope`'s predicate: what the handles of `capability` match in the table for `use`. -/
def scopeTerms (model : TableModel) (capability : CapabilityGrant) (use : ScopeUse) : Checked ScopeTerms :=
  match capability with
  | .row _ _ _ _ _ =>
    refuse .wrongCapability ("ctx.sql.scope takes a Ref, a Within or an app capability, got " ++ describeGrant capability)
  | .app action _ => do
    checkUse model capability use
    appTerms model action use
  | .ref grant => do
    checkUse model capability use
    match model.scope with
    | .app _ _ => applicationTerms model capability
    | _ => refTerms model use grant
  | .within grant => do
    checkUse model capability use
    match model.scope with
    | .app _ _ => applicationTerms model capability
    | _ => withinTerms model use grant

inductive SqlDialect
  | postgres
  | sqlite
  deriving DecidableEq

/-- `listOpen` and `listClose`: one parameter either way. -/
def listTest : SqlDialect → List (Tok Lex) × List (Tok Lex)
  | .postgres => ([.word (.operator "="), .word .any, .opening], [.closing])
  | .sqlite =>
    ([.word (.operator "in"), .opening, .word .select, .word .value, .word .from, .word .jsonEach, .opening],
      [.closing, .closing])

/-- The static parts so far, the value bound after each, and the text since. -/
structure Fragment where
  parts : List (List (Tok Lex))
  values : List Bound
  text : List (Tok Lex)

/-- One test of a group: `text` up to its value is a part, and what closes it starts the next. -/
def Fragment.addTest (name : String) (dialect : SqlDialect) (fragment : Fragment) (first : Bool) (test : ScopeTest) : Fragment :=
  let text := fragment.text ++ (if first then [] else [.word .and])
    ++ [.word (.name name), .word .dot, .word (.name test.column)]
  match test.value with
  | .one value => ⟨fragment.parts ++ [text ++ [.word (.operator "=")]], fragment.values ++ [.text value], []⟩
  | .list values =>
    ⟨fragment.parts ++ [text ++ (listTest dialect).1], fragment.values ++ [.list values], (listTest dialect).2⟩

def Fragment.addTests (name : String) (dialect : SqlDialect) : Fragment → Bool → List ScopeTest → Fragment
  | fragment, _, [] => fragment
  | fragment, first, test :: rest => addTests name dialect (fragment.addTest name dialect first test) false rest

def Fragment.addGroups (name : String) (dialect : SqlDialect) : Fragment → Bool → List (List ScopeTest) → Fragment
  | fragment, _, [] => fragment
  | fragment, first, group :: rest =>
    let fragment := { fragment with text := fragment.text ++ (if first then [] else [Tok.word Lex.or]) ++ [Tok.opening] }
    let fragment := fragment.addTests name dialect true group
    addGroups name dialect { fragment with text := fragment.text ++ [Tok.closing] } false rest

/-- The predicate the terms make over the columns of `name`, the table's alias: static parts
    around one bound value per test. -/
def scopeFragment (terms : ScopeTerms) (name : String) (dialect : SqlDialect) : List (List (Tok Lex)) × List Bound :=
  match terms with
  | .all => ([[.opening, .word (.literal (some true)), .closing]], [])
  | .groups [] => ([[.opening, .word (.literal (some false)), .closing]], [])
  | .groups groups =>
    let fragment := Fragment.addGroups name dialect ⟨[], [], [.opening]⟩ true groups
    (fragment.parts ++ [fragment.text ++ [.closing]], fragment.values)

/-- The text of the parts with each value a parameter after its part, as `expandScopes` splices
    it. -/
def splice : List (List (Tok Lex)) → List Bound → List (Tok Lex)
  | part :: parts, value :: values => part ++ .word (.param value) :: splice parts values
  | parts, [] => parts.flatten
  | [], _ :: _ => []

end Fabrika.Db.Scope
