/-
  Fabrika.Platform.Placeholders — `?` placeholders rewritten to the `$1..$n` of Postgres.

  A text is its characters, as in `Fabrika.Platform.MigrationSql`, whose three regular expressions
  this scanner repeats. One turn of its loop is `turn`: what it steps over untouched, or the
  placeholder it numbers, or the construct that never closes. It is handed the character before
  the one it stands on, which is all the loop looks back at.
-/

import Fabrika.Platform.MigrationSql

namespace Fabrika.Platform.Placeholders

open Fabrika.Lib Fabrika.Platform.MigrationSql

structure RewrittenSql where
  text : List Char
  /-- How many placeholders were rewritten. -/
  count : Nat
  deriving DecidableEq

/-! ## Scanners -/

/-- What the comment takes from here on, at the depth reached. -/
def scanBlockComment : Nat → List Char → Option Nat
  | _, [] => none
  | _, [_] => none
  | depth, char :: next :: rest =>
    if char = '/' ∧ next = '*' then (scanBlockComment (depth + 1) rest).map (· + 2)
    else if char = '*' ∧ next = '/' then
      if depth - 1 = 0 then some 2 else (scanBlockComment (depth - 1) rest).map (· + 2)
    else (scanBlockComment depth (next :: rest)).map (· + 1)

/-- What is taken behind the opening quote, the closing one included. -/
def scanQuoted (quote : Char) (backslashEscapes : Bool) : List Char → Option Nat
  | [] => none
  | [char] => if backslashEscapes && char = '\\' then none else if char = quote then some 1 else none
  | char :: next :: rest =>
    if backslashEscapes && char = '\\' then (scanQuoted quote backslashEscapes rest).map (· + 2)
    else if char = quote then
      if next = quote then (scanQuoted quote backslashEscapes rest).map (· + 2) else some 1
    else (scanQuoted quote backslashEscapes (next :: rest)).map (· + 1)

def unterminatedQuoted (quote : Char) : String :=
  if quote = '"' then "unterminated quoted identifier in SQL" else "unterminated string literal in SQL"

def unterminatedDollar (tag : String) : String := s!"unterminated dollar-quoted string ({tag}) in SQL"

/-! ## One turn of the loop -/

inductive Kind
  | copied
  | placeholder
  deriving DecidableEq

/-- A scanner's end as what the turn copies, `lead` characters behind its first one and before the scanned text. -/
def copyTo (lead : Nat) (found : Option Nat) (message : String) : Except String (Scan.Piece Kind) :=
  match found with
  | some size => .ok ⟨.copied, lead + size⟩
  | none => .error message

def turn (before : Option Char) (char : Char) (rest : List Char) : Except String (Scan.Piece Kind) :=
  let next := rest.head?
  if char = '-' ∧ next = some '-' then .ok ⟨.copied, (rest.takeWhile (· ≠ '\n')).length⟩
  else if char = '/' ∧ next = some '*' then
    copyTo 0 ((scanBlockComment 0 (char :: rest)).map (· - 1)) "unterminated block comment in SQL"
  else if char = '\'' ∨ char = '"' then copyTo 0 (scanQuoted char false rest) (unterminatedQuoted char)
  else if char = '$' then
    match dollarTagAt (char :: rest) with
    | some tag =>
      let bodyEnd := indexOf tag (rest.drop (tag.length - 1))
      copyTo (tag.length - 1) (bodyEnd.map (· + tag.length)) (unterminatedDollar (String.ofList tag))
    | none => .ok ⟨.copied, 0⟩
  else if isWordStart char then
    let part := rest.takeWhile isWordPart
    let after := rest.drop part.length
    -- The word is a standalone `E`, and no digit stands before it.
    if part = [] ∧ (char = 'E' ∨ char = 'e') ∧ after.head? = some '\'' ∧ !before.any Char.isDigit then
      copyTo 1 (scanQuoted '\'' true after.tail) (unterminatedQuoted '\'')
    else .ok ⟨.copied, part.length⟩
  else if char = '?' then
    -- An operator `??`, `?|` or `?&` passes through untouched.
    if next = some '?' ∨ next = some '|' ∨ next = some '&' then .ok ⟨.copied, 1⟩ else .ok ⟨.placeholder, 0⟩
  else .ok ⟨.copied, 0⟩

/-! ## The whole text -/

/-- What the loop appends to its output in one turn. -/
inductive Part
  | copied (text : List Char)
  | placeholder (number : Nat)
  deriving DecidableEq

def Part.written : Part → List Char
  | .copied text => text
  | .placeholder number => '$' :: (toString number).toList

/-- The part of a turn that took `text`, `count` placeholders having come before. -/
def partOf (count : Nat) (text : List Char) : Kind → Part
  | .copied => .copied text
  | .placeholder => .placeholder (count + 1)

def counted (count : Nat) : Kind → Nat
  | .copied => count
  | .placeholder => count + 1

/-- The loop's turns; a turn takes a character, so the text's length is fuel enough. -/
def partsFrom : Nat → Option Char → Nat → List Char → Except String (List Part)
  | 0, _, _, _ => .ok []
  | _ + 1, _, _, [] => .ok []
  | fuel + 1, before, count, char :: rest => do
    let piece ← turn before char rest
    let text := char :: rest.take piece.more
    let later ← partsFrom fuel text.getLast? (counted count piece.kind) (rest.drop piece.more)
    .ok (partOf count text piece.kind :: later)

def isPlaceholder : Part → Bool
  | .copied _ => false
  | .placeholder _ => true

def rewritePlaceholders (sql : List Char) : Except String RewrittenSql := do
  let parts ← partsFrom sql.length none 0 sql
  .ok ⟨parts.flatMap Part.written, parts.countP isPlaceholder⟩

end Fabrika.Platform.Placeholders
