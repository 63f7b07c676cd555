/-
  Fabrika.Db.SqlTemplate — the template of `ctx.sql` (sql.ts): its static parts with a placeholder
  between them (`statementText`), the check that each placeholder stands at code level
  (`placedTokens`), and the scope fragments spliced into it (`scopeFragment`, `expandScopes`).

  The parts are characters here, as the tokenizers read them; `Fabrika.Db.Scope` has the same
  fragment as words. A value is what the caller interpolates, of any type, or a fragment of
  `ctx.sql.scope`, which knows the site it was built at.
-/

import Fabrika.Db.Scope
import Fabrika.Platform.MigrationSql
import Fabrika.Platform.SqliteSql

namespace Fabrika.Db.SqlTemplate

open Fabrika.Platform Fabrika.Platform.MigrationSql
open Fabrika.Db.Scope (SqlDialect ScopeTerms ScopeTest TestValue)

inductive QueryRefusal
  | sqlTemplate
  | sqlScope
  deriving DecidableEq

structure QueryRefusedError where
  reason : QueryRefusal
  message : String
  deriving DecidableEq

abbrev Checked := Except QueryRefusedError

def refuse {α : Type} (reason : QueryRefusal) (message : String) : Checked α := .error ⟨reason, "ctx.sql: " ++ message⟩

/-- The static parts of a template, one more than its interpolations. -/
abbrev Parts := List (List Char)

/-! ## The statement's text -/

/-- What opens a placeholder the tag writes. -/
def markerOf : SqlDialect → Char
  | .postgres => '$'
  | .sqlite => '?'

def decimal (number : Nat) : List Char := (toString number).toList

/-- The parts from the placeholder `index` on. -/
def statementFrom (marker : Char) : Nat → Parts → Checked (List Char)
  | _, [] => .ok []
  | index, part :: rest =>
    if part.head?.any Char.isDigit then
      refuse .sqlTemplate ("a digit right after the value $\x7b…\x7d number " ++ toString index
        ++ " would join its placeholder; put a space between them")
    else do
      let later ← statementFrom marker (index + 1) rest
      .ok (marker :: decimal index ++ part ++ later)

def statementText (parts : Parts) (marker : Char) : Checked (List Char) := do
  let later ← statementFrom marker 1 parts.tail
  .ok (parts.headD [] ++ later)

/-! ## Placed tokens -/

def isPunct (token : Option SqlToken) (char : Char) : Bool :=
  match token with
  | some (.punct c _) => c = char
  | _ => false

def isDigit (token : Option SqlToken) : Bool :=
  match token with
  | some (.punct c _) => c.isDigit
  | _ => false

/-- A marker with a digit right behind it, in the text a part writes. -/
def written (marker : Char) : List Char → Bool
  | char :: next :: rest => (char = marker && next.isDigit) || written marker (next :: rest)
  | _ => false

/-- What starts a parameter SQLite binds by name or by position. -/
def sqliteParameterStarts : List Char := ['?', ':', '@', '$', '#']

def lexemesOf : SqlDialect → List Char → Lexemes
  | .postgres => lexemes
  | .sqlite => SqliteSql.lexemes

def lexOf : SqlDialect → List Char → Lexed
  | .postgres => lexSql
  | .sqlite => SqliteSql.lexSqlite

/-- The loop that counts the placeholders, `placed` of them already counted. -/
def countPlaced (dialect : SqlDialect) : Nat → List SqlToken → Checked Nat
  | placed, [] => .ok placed
  | placed, token :: rest =>
    if isPunct (some token) (markerOf dialect) && isDigit rest.head? then countPlaced dialect (placed + 1) rest
    else
      match token with
      | .punct char line =>
        if dialect = .sqlite ∧ sqliteParameterStarts.contains char then
          refuse .sqlTemplate (String.singleton char ++ " at line " ++ toString line
            ++ " starts a parameter the text writes, which nothing binds; interpolate the value with $\x7b…\x7d")
        else countPlaced dialect placed rest
      | _ => countPlaced dialect placed rest

def placedTokens (parts : Parts) (dialect : SqlDialect) : Checked (List SqlToken) :=
  if parts.any (written (markerOf dialect)) then
    refuse .sqlTemplate ("the text holds " ++ String.singleton (markerOf dialect)
      ++ " and a digit, which reads as a positional parameter; interpolate the value with $\x7b…\x7d, a literal one too")
  else do
    let text ← statementText parts (markerOf dialect)
    let lexed := lexOf dialect text
    match lexed.unterminated with
    | some line =>
      refuse .sqlTemplate ("a string, quoted name, dollar-quoted body or comment at line " ++ toString line ++ " never closes")
    | none =>
      let placed ← countPlaced dialect 0 lexed.tokens
      -- The source compares with `parts.length - 1`, which is -1 for no part.
      if placed + 1 ≠ parts.length then
        refuse .sqlTemplate
          ("a value $\x7b…\x7d inside a string literal, a quoted name, a dollar-quoted body or a comment is not bound; "
          ++ "interpolate a whole value")
      else .ok lexed.tokens

/-! ## Scope fragments -/

/-- `listOpen` and `listClose`. -/
def listTest : SqlDialect → List Char × List Char
  | .postgres => (" = any(".toList, ")".toList)
  | .sqlite => (" in (select value from json_each(".toList, "))".toList)

/-- The static parts so far, the value bound after each, and the text since. -/
structure Fragment where
  parts : Parts
  values : List TestValue
  text : List Char
  deriving DecidableEq

def Fragment.addText (text : List Char) (fragment : Fragment) : Fragment :=
  { fragment with text := fragment.text ++ text }

/-- What stands before a test's value, and what closes the test behind it. -/
def aroundValue (dialect : SqlDialect) : TestValue → List Char × List Char
  | .one _ => (" = ".toList, [])
  | .list _ => listTest dialect

def Fragment.addTest (name : List Char) (dialect : SqlDialect) (first : Bool) (test : ScopeTest) (fragment : Fragment) :
    Fragment :=
  let around := aroundValue dialect test.value
  let text := fragment.text ++ (if first then [] else " and ".toList) ++ name ++ ['.'] ++ test.column.toList ++ around.1
  ⟨fragment.parts ++ [text], fragment.values ++ [test.value], around.2⟩

def Fragment.addTests (name : List Char) (dialect : SqlDialect) : Bool → List ScopeTest → Fragment → Fragment
  | _, [], fragment => fragment
  | first, test :: rest, fragment => addTests name dialect false rest (fragment.addTest name dialect first test)

def Fragment.addGroups (name : List Char) (dialect : SqlDialect) : Bool → List (List ScopeTest) → Fragment → Fragment
  | _, [], fragment => fragment
  | first, group :: rest, fragment =>
    let opened := fragment.addText ((if first then [] else " or ".toList) ++ ['('])
    addGroups name dialect false rest ((opened.addTests name dialect true group).addText [')'])

/-- The predicate the terms make over the columns of the alias: static parts around one value per test. -/
def scopeFragment (terms : ScopeTerms) (name : List Char) (dialect : SqlDialect) : Parts × List TestValue :=
  match terms with
  | .all => (["(true)".toList], [])
  | .groups [] => (["(false)".toList], [])
  | .groups groups =>
    let fragment := Fragment.addGroups name dialect true groups ⟨[], [], ['(']⟩
    (fragment.parts ++ [fragment.text ++ [')']], fragment.values)

/-! ## Splicing -/

section Splicing

variable {S V : Type}

/-- What a template interpolates: a value, or a fragment with its site, alias and terms. -/
inductive Interpolation (S V : Type)
  | value (value : V)
  | scope (site : S) (name : List Char) (terms : ScopeTerms)

inductive Parameter (V : Type)
  | given (value : V)
  | test (value : TestValue)
  deriving DecidableEq

/-- The expanded parts but the last, that one, and the values bound between them. -/
structure Expanded (V : Type) where
  done : Parts
  last : List Char
  bound : List (Parameter V)

def Expanded.addText (text : List Char) (expanded : Expanded V) : Expanded V :=
  { expanded with last := expanded.last ++ text }

/-- A value, and the part that follows it. -/
def Expanded.push (value : Parameter V) (part : List Char) (expanded : Expanded V) : Expanded V :=
  ⟨expanded.done ++ [expanded.last], part, expanded.bound ++ [value]⟩

/-- The values of a fragment, each with the fragment's part behind it. -/
def Expanded.pushTests : Parts → List TestValue → Expanded V → Expanded V
  | _, [], expanded => expanded
  | parts, value :: values, expanded => pushTests parts.tail values (expanded.push (.test value) (parts.headD []))

/-- The loop over the interpolations, with the parts behind them. -/
def expandFrom [DecidableEq S] (site : S) (dialect : SqlDialect) :
    Parts → List (Interpolation S V) → Expanded V → Checked (Expanded V)
  | _, [], expanded => .ok expanded
  | parts, .value value :: values, expanded =>
    expandFrom site dialect parts.tail values (expanded.push (.given value) (parts.headD []))
  | parts, .scope owner name terms :: values, expanded =>
    if owner ≠ site then
      refuse .sqlScope "a ctx.sql.scope(…) of another invocation or site is refused; build it with this ctx.sql"
    else
      let rendered := scopeFragment terms name dialect
      let spliced := (expanded.addText (rendered.1.headD [])).pushTests rendered.1.tail rendered.2
      expandFrom site dialect parts.tail values (spliced.addText (parts.headD []))

structure Template (V : Type) where
  parts : Parts
  values : List (Parameter V)

def expandScopes [DecidableEq S] (site : S) (parts : Parts) (values : List (Interpolation S V)) (dialect : SqlDialect) :
    Checked (Template V) := do
  let _ ← placedTokens parts dialect
  let expanded ← expandFrom site dialect parts.tail values ⟨[], parts.headD [], []⟩
  .ok ⟨expanded.done ++ [expanded.last], expanded.bound⟩

end Splicing

end Fabrika.Db.SqlTemplate
