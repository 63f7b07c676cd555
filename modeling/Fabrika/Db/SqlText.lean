/-
  Fabrika.Db.SqlText — the words the layer's statements are made of, and what the tests among
  them say of the rows they name.

  A name stands for the row bound to it; a cell is null or a value, and how a value equals a
  bound one is the column's own (`equal`), so what holds here holds of every column type.
-/

import Fabrika.Lib.BoolText

namespace Fabrika.Db.SqlText

open Fabrika.Lib

/-- A value bound as one parameter: a scalar, or on `= any($n)` and `json_each(?n)` a list. -/
inductive Bound
  | text (value : String)
  | number (value : Int)
  | bool (value : Bool)
  | null
  | list (values : List String)
  deriving DecidableEq

inductive Lex
  | name (name : String)
  | dot
  | comma
  | param (value : Bound)
  /-- A value the compiler prints: `null`, `true` or `false`. -/
  | literal (value : Option Bool)
  | operator (operator : String)
  | and
  | or
  | any
  | select
  | value
  | from
  | jsonEach
  deriving DecidableEq

abbrev Text := List (Item Lex)

def isAnd : Lex → Bool
  | .and => true
  | _ => false

def isOr : Lex → Bool
  | .or => true
  | _ => false

section Tests

variable {V : Type} (equal : V → Bound → Bool)

abbrev Cells (V : Type) := String → Option V

/-- `cell = value`: unknown where either is null. -/
def equals (cell : Option V) (value : Bound) : Truth :=
  match cell, value with
  | some cell, value => if value = .null then .unknown else Truth.ofBool (equal cell value)
  | none, _ => .unknown

/-- `cell in (values)` and its spellings: one equality is enough. -/
def isIn (cell : Option V) (values : List Bound) : Truth := Truth.any (values.map (equals equal cell))

/-- The values of `$1, $2, …`. -/
def params : Text → Option (List Bound)
  | [.word (.param value)] => some [value]
  | .word (.param value) :: .word .comma :: rest => (params rest).map (value :: ·)
  | _ => none

/-- The tests the layer prints over one column. -/
def test (rows : String → Option (Cells V)) : Text → Option Truth
  | [.word (.literal (some b))] => some (Truth.ofBool b)
  | [.word (.name table), .word .dot, .word (.name column), .word (.operator "="), .word (.param value)] =>
    (rows table).map fun row => equals equal (row column) value
  | [.word (.name table), .word .dot, .word (.name column), .word (.operator "in"), .group values] =>
    match values with
    | [.word .select, .word .value, .word .from, .word .jsonEach, .group [.word (.param (.list values))]] =>
      (rows table).map fun row => isIn equal (row column) (values.map .text)
    | values => (rows table).bind fun row => (params values).map fun values => isIn equal (row column) values
  | [.word (.name table), .word .dot, .word (.name column), .word (.operator "="), .word .any,
      .group [.word (.param (.list values))]] =>
    (rows table).map fun row => isIn equal (row column) (values.map .text)
  | _ => none

section

variable (rows : String → Option (Cells V)) (table column : String)

theorem test_literal (b : Bool) : test equal rows [.word (.literal (some b))] = some (Truth.ofBool b) := rfl

theorem test_equals (value : Bound) :
    test equal rows [.word (.name table), .word .dot, .word (.name column), .word (.operator "="), .word (.param value)] =
      (rows table).map fun row => equals equal (row column) value := rfl

theorem test_each (values : List String) :
    test equal rows [.word (.name table), .word .dot, .word (.name column), .word (.operator "in"),
        .group [.word .select, .word .value, .word .from, .word .jsonEach, .group [.word (.param (.list values))]]] =
      (rows table).map fun row => isIn equal (row column) (values.map .text) := rfl

theorem test_in (value : Bound) (rest : Text) :
    test equal rows [.word (.name table), .word .dot, .word (.name column), .word (.operator "in"),
      .group (.word (.param value) :: rest)] =
      (rows table).bind fun row => (params (.word (.param value) :: rest)).map fun values => isIn equal (row column) values := rfl

theorem test_any (values : List String) :
    test equal rows [.word (.name table), .word .dot, .word (.name column), .word (.operator "="), .word .any,
        .group [.word (.param (.list values))]] =
      (rows table).map fun row => isIn equal (row column) (values.map .text) := rfl

end

/-- Conditions as SQL reads them over the rows bound to their names. -/
def reading (rows : String → Option (Cells V)) : Reading Lex := ⟨isAnd, isOr, test equal rows⟩

end Tests

/-- One row under one name. -/
def under {V : Type} (name : String) (row : Cells V) : String → Option (Cells V) := fun other =>
  if other = name then some row else none

end Fabrika.Db.SqlText
