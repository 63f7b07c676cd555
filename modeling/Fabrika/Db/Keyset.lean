/-
  Fabrika.Db.Keyset — a table's keyset pages (`listRows` in orm.ts and what it calls,
  `orderItem` and `selectNode` in nodes.ts).

  A list orders by the caller's terms and, last, by the tiebreak columns they do not name. A page
  reads one row more than its limit; where there is one, the page's cursor is the printed text of
  its last row's order columns, and the next page is read by a condition over these
  (`keysetAfter`), which on a null column needs its own form.

  The database is a parameter: how a column prints a value as text, what it reads a bound value
  as, and what a condition outside the ones here says of a row. A bound text that a column's type
  does not read fails the statement; nothing here depends on what `bind` gives for one.
-/

import Fabrika.Db.Cursor
import Fabrika.Db.Scope
import Fabrika.Lib.Keyset

namespace Fabrika.Db.Keyset

open Fabrika.Lib Fabrika.Lib.Keyset Fabrika.Db.Policy Fabrika.Db.Nodes Fabrika.Db.Cursor
open Fabrika.Db.SqlText (Bound Cells)
open Fabrika.Db.Scope (SqlDialect)

/-! ## Requests and refusals -/

inductive Direction
  | asc
  | desc
  deriving DecidableEq

structure OrderColumn where
  column : String
  direction : Direction
  deriving DecidableEq

inductive QueryReason
  | invalidArgument
  | unknownColumn
  | listPage
  deriving DecidableEq

structure QueryRefusedError where
  reason : QueryReason
  message : String
  deriving DecidableEq

abbrev Checked := Except QueryRefusedError

/-- What a capability's action shows of a table. -/
structure TableShape where
  table : String
  visible : List String
  json : List String

def columnOf (shape : TableShape) (name : String) : Checked String :=
  if isPlainIdentifier name && inSet shape.visible name then pure name
  else throw ⟨.unknownColumn, name ++ " is not a column of " ++ shape.table ++ " (columns: " ++
    ", ".intercalate shape.visible ++ ")"⟩

/-- A column a query may order by: never a JSON one. -/
def comparableColumnOf (shape : TableShape) (name use : String) : Checked String := do
  let column ← columnOf shape name
  if inSet shape.json column then
    throw ⟨.invalidArgument, column ++ " of " ++ shape.table ++ " is a JSON column, which the data layer never " ++ use
      ++ "; read a path of it with ctx.sql (->>)"⟩
  else pure column

def parseDirection : String → Option Direction
  | "asc" => some .asc
  | "desc" => some .desc
  | _ => none

def parseTerm (shape : TableShape) : List String → Checked OrderColumn
  | [name, direction] =>
    match parseDirection direction with
    | some direction => do return ⟨← comparableColumnOf shape name "orders by", direction⟩
    | none => throw ⟨.listPage, "orderBy takes [column, 'asc' | 'desc'] terms, each a plain array"⟩
  | _ => throw ⟨.listPage, "orderBy takes [column, 'asc' | 'desc'] terms, each a plain array"⟩

/-- The tiebreak is held to the capability's columns like the caller's terms: a page never orders
    by a hidden one. -/
def withTiebreak (shape : TableShape) (named : List String) (order : List OrderColumn) : List String → Checked (List OrderColumn)
  | [] => pure order
  | name :: rest => do
    let name ← columnOf shape name
    withTiebreak shape named (if inSet named name then order else order ++ [⟨name, .asc⟩]) rest

def orderOf (shape : TableShape) (orderBy : Option (List (List String))) (tiebreak : List String) :
    Checked (List OrderColumn) := do
  let terms ← (orderBy.getD []).mapM (parseTerm shape)
  withTiebreak shape (nameSet (terms.map OrderColumn.column)) terms tiebreak

def DEFAULT_LIST_LIMIT : Nat := 50

def MAX_LIST_LIMIT : Nat := 500

def limitOf : Option Int → Checked Nat
  | none => pure DEFAULT_LIST_LIMIT
  | some limit =>
    if 1 ≤ limit ∧ limit ≤ MAX_LIST_LIMIT then pure limit.toNat
    else throw ⟨.listPage, "limit must be an integer from 1 to " ++ toString MAX_LIST_LIMIT⟩

/-! ## The statement -/

inductive ConditionValue
  | null
  | list (items : List Bound)
  | scalar (value : Bound)

/-- A condition of the caller's `where`, parsed and bound. -/
inductive Condition
  | compare (column operator : String) (value : ConditionValue)
  | contains (column text : String)

def compareNode (table name operator : String) (value : ConditionValue) : OperationNode :=
  .binaryOperation (column table name) (.operator operator) <|
    match value with
    | .null => .immediate none
    | .list items => .valueList (items.map .value)
    | .scalar value => .value value

/-- LIKE treats a backslash as its escape character by default, so the text matches literally. -/
def containsPattern (text : String) : String :=
  String.ofList (['%'] ++ (text.toList.flatMap fun c => if c = '\\' ∨ c = '%' ∨ c = '_' then ['\\', c] else [c]) ++ ['%'])

def conditionNode (table : String) : Condition → OperationNode
  | .compare name operator value => compareNode table name operator value
  | .contains name text => .binaryOperation (column table name) (.operator "ilike") (.value (.text (containsPattern text)))

/-- Nothing of no conditions. -/
def conditionsNode (table : String) (conditions : List Condition) : Option OperationNode :=
  allOf (conditions.map (conditionNode table))

def compare (table name operator : String) (value : Units) : OperationNode :=
  .binaryOperation (column table name) (.operator operator) (.value (.text (usvString value)))

def isNull (table name : String) (negated : Bool) : OperationNode :=
  .binaryOperation (column table name) (.operator (if negated then "is not" else "is")) (.immediate none)

/-- Rows after `value` in one order column, where Postgres sorts nulls last ascending and first
    descending. -/
def after (table : String) (order : OrderColumn) (value : CursorValue) : Option OperationNode :=
  match order.direction, value with
  | .asc, none => none
  | .asc, some value => anyOf [compare table order.column ">" value, isNull table order.column false]
  | .desc, none => some (isNull table order.column true)
  | .desc, some value => some (compare table order.column "<" value)

def equalTo (table name : String) : CursorValue → OperationNode
  | none => isNull table name false
  | some value => compare table name "=" value

/-- The columns before `index` at the cursor, and this one after it; none where nothing is after
    it in this column. -/
def branch (table : String) (order : List OrderColumn) (values : List CursorValue) (index : Nat) : Option OperationNode := do
  let term ← order[index]?
  let position ← after table term (values[index]?).join
  let equal := (List.range index).map fun previous =>
    equalTo table ((order[previous]?).elim "" OrderColumn.column) (values[previous]?).join
  if equal.length = 0 then position else allOf (equal ++ [position])

/-- `(c1 after v1) or (c1 = v1 and c2 after v2) or …`: every row the order puts after the
    cursor's; of no branch, none. -/
def keysetAfter (table : String) (order : List OrderColumn) (values : List CursorValue) : OperationNode :=
  (anyOf ((List.range order.length).filterMap (branch table order values))).getD (.immediate (some false))

inductive Nulls
  | first
  | last
  deriving DecidableEq

structure OrderByItem where
  column : String
  direction : Direction
  nulls : Option Nulls
  deriving DecidableEq

/-- Postgres sorts nulls last ascending and first descending; SQLite the other way, so on SQLite
    the term states Postgres's order. -/
def orderItem (order : OrderColumn) : SqlDialect → OrderByItem
  | .postgres => ⟨order.column, order.direction, none⟩
  | .sqlite => ⟨order.column, order.direction, some (match order.direction with | .asc => .last | .desc => .first)⟩

structure SelectQuery where
  filter : OperationNode
  orderBy : List OrderByItem
  limit : Nat

/-- The caller's conditions inside an explicit parenthesis, the scope the top-level right
    conjunct. -/
def scopedWhere (conditions : Option OperationNode) (scope : OperationNode) : OperationNode :=
  match conditions with
  | none => scope
  | some conditions => .and (.parens conditions) scope

/-- `after` is a page's position, ANDed to the caller's conditions inside their parenthesis. -/
def withPosition (conditions after : Option OperationNode) : Option OperationNode :=
  match after, conditions with
  | none, _ => conditions
  | some after, none => some after
  | some after, some conditions => some (.and conditions (.parens after))

def selectNode (table : String) (conditions : List Condition) (order : List OrderColumn) (limit : Nat) (scope : OperationNode)
    (after : Option OperationNode) (dialect : SqlDialect) : SelectQuery :=
  ⟨scopedWhere (withPosition (conditionsNode table conditions) after) scope, order.map (orderItem · dialect), limit⟩

/-! ## The database -/

structure Database (V : Type) where
  /-- `cast(<column> as text)`. -/
  text : String → V → String
  /-- The value of its column's type that a bound value is compared as. -/
  bind : String → Bound → V
  /-- What any other condition says of a row. -/
  test : Cells V → OperationNode → Truth

section
variable {V : Type} [LinearOrder V]

/-- A comparison with null is unknown. -/
def compared (cell : Option V) (operator : String) (value : V) : Option Truth :=
  match operator with
  | "=" => some (cell.elim .unknown fun cell => Truth.ofBool (cell = value))
  | ">" => some (cell.elim .unknown fun cell => Truth.ofBool (value < cell))
  | "<" => some (cell.elim .unknown fun cell => Truth.ofBool (cell < value))
  | _ => none

/-- What a condition says of a row. -/
def truth (db : Database V) (row : Cells V) : OperationNode → Truth
  | .immediate (some b) => Truth.ofBool b
  | .and left right => (truth db row left).and (truth db row right)
  | .or left right => (truth db row left).or (truth db row right)
  | .parens node => truth db row node
  | .binaryOperation (.reference table name) (.operator operator) (.value value) =>
    (compared (row name) operator (db.bind name value)).getD
      (db.test row (.binaryOperation (.reference table name) (.operator operator) (.value value)))
  | .binaryOperation (.reference table name) (.operator operator) (.immediate none) =>
    if operator = "is" then Truth.ofBool (row name).isNone
    else if operator = "is not" then Truth.ofBool (row name).isSome
    else db.test row (.binaryOperation (.reference table name) (.operator operator) (.immediate none))
  | node => db.test row node

theorem truth_and (db : Database V) (row : Cells V) (left right : OperationNode) :
    truth db row (.and left right) = (truth db row left).and (truth db row right) := by
  rw [truth]

theorem truth_or (db : Database V) (row : Cells V) (left right : OperationNode) :
    truth db row (.or left right) = (truth db row left).or (truth db row right) := by
  rw [truth]

/-- Where a dialect sorts nulls that an order item gives no place. -/
def defaultNulls : SqlDialect → Direction → Nulls
  | .postgres, .asc => .last
  | .postgres, .desc => .first
  | .sqlite, .asc => .first
  | .sqlite, .desc => .last

def sortTerm (dialect : SqlDialect) (item : OrderByItem) : Term String :=
  ⟨item.column, item.direction = .desc, item.nulls.getD (defaultNulls dialect item.direction) = .first⟩

/-- The rows a statement selects, in its order. -/
def Database.run (db : Database V) (dialect : SqlDialect) (rows : List (Cells V)) (query : SelectQuery) : List (Cells V) :=
  (sortRows (query.orderBy.map (sortTerm dialect)) (rows.filter fun row => truth db row query.filter = .true)).take query.limit

/-! ## Lists -/

/-- The order columns' texts that `withCursorColumns` selects. -/
def cursorValues (db : Database V) (order : List OrderColumn) (row : Cells V) : List CursorValue :=
  order.map fun term => (row term.column).map fun value => codeUnits (db.text term.column value)

/-- A row as the caller sees it: the action's columns. -/
def answer (visible : List String) (row : Cells V) : List (String × Option V) := visible.map fun name => (name, row name)

structure ListOptions where
  conditions : List Condition
  orderBy : Option (List (List String))
  limit : Option Int
  after : Option (List Char)

/-- The condition of the page after a cursor. -/
def positionOf (shape : TableShape) (order : List OrderColumn) : Option (List Char) → Checked (Option OperationNode)
  | none => pure none
  | some cursor =>
    match decodeCursor cursor order.length with
    | some values => pure (some (keysetAfter shape.table order values))
    | none => throw ⟨.listPage, "after takes the next cursor of a page of this same list"⟩

/-- One keyset page: `limit` rows in the order asked, the tiebreak columns last, and the cursor of
    the next page. No scope reaches no row. -/
def listRows (db : Database V) (dialect : SqlDialect) (rows : List (Cells V)) (shape : TableShape) (scope : Option OperationNode)
    (tiebreak : List String) (options : ListOptions) : Checked (Page (List (String × Option V)) (List Char)) := do
  let order ← orderOf shape options.orderBy tiebreak
  let limit ← limitOf options.limit
  let position ← positionOf shape order options.after
  match scope with
  | none => return ⟨[], none⟩
  | some scope =>
    let found := db.run dialect rows (selectNode shape.table options.conditions order (limit + 1) scope position dialect)
    let page := found.take limit
    return ⟨page.map (answer shape.visible),
      if limit < found.length then page.getLast?.map fun last => encodeCursor (cursorValues db order last) else none⟩

end

end Fabrika.Db.Keyset
