/-
  Fabrika.Db.Nodes — nodes.ts: the operation nodes the scope predicates are built of, and the
  text Kysely prints of each.
-/

import Fabrika.Db.SqlText

namespace Fabrika.Db.Nodes

open Fabrika.Lib Fabrika.Db.SqlText

inductive OperationNode
  | reference (table column : String)
  | operator (operator : String)
  | value (value : Bound)
  | immediate (value : Option Bool)
  | valueList (values : List OperationNode)
  | binaryOperation (left operator right : OperationNode)
  | and (left right : OperationNode)
  | or (left right : OperationNode)
  | parens (node : OperationNode)

mutual

def OperationNode.print : OperationNode → Text
  | .reference table column => [.word (.name table), .word .dot, .word (.name column)]
  | .operator operator => [.word (.operator operator)]
  | .value value => [.word (.param value)]
  | .immediate value => [.word (.literal value)]
  | .valueList values => [.group (joined .comma (printAll values))]
  | .binaryOperation left operator right => left.print ++ operator.print ++ right.print
  | .and left right => left.print ++ .word .and :: right.print
  | .or left right => left.print ++ .word .or :: right.print
  | .parens node => [.group node.print]

def printAll : List OperationNode → List Text
  | [] => []
  | node :: rest => node.print :: printAll rest

end

theorem print_and (left right : OperationNode) : (OperationNode.and left right).print = left.print ++
    .word .and :: right.print := by
  rw [OperationNode.print]

theorem print_or (left right : OperationNode) : (OperationNode.or left right).print = left.print ++ .word .or :: right.print := by
  rw [OperationNode.print]

def column (table name : String) : OperationNode := .reference table name

def equals (table name : String) (value : Bound) : OperationNode :=
  .binaryOperation (column table name) (.operator "=") (.value value)

def inList (table name : String) (values : List String) : OperationNode :=
  .binaryOperation (column table name) (.operator "in") (.valueList (values.map fun value => .value (.text value)))

/-- The scope of a `Within` that is not limited to scope values. -/
def everything : OperationNode := .immediate (some true)

/-- `none` is the refusal of an empty conjunction. -/
def allOf : List OperationNode → Option OperationNode
  | [] => none
  | node :: rest => some (rest.foldl .and node)

/-- One node, or the OR of several in a parenthesis: inside an AND, `a and b or c` would read as
    `(a and b) or c`. -/
def anyOf : List OperationNode → Option OperationNode
  | [] => none
  | [node] => some node
  | node :: rest => some (.parens (rest.foldl .or node))

end Fabrika.Db.Nodes
