/-
  Fabrika.Platform.SqliteSql — SQLite's lexical rules, in the tokens of `Fabrika.Platform.MigrationSql`.

  One turn of the loop is `lexAt`, as there. There is no `E'…'` string and no dollar quoting; block
  comments do not nest, and a line comment ends at a line feed only.
-/

import Fabrika.Platform.MigrationSql

namespace Fabrika.Platform.SqliteSql

open Fabrika.Lib
open Fabrika.Platform.MigrationSql (Lexeme Lexemes Lexed Body indexOf lexFrom)

/-! ## Characters -/

def byteOrderMark : Char := '\ufeff'

def isSpace (char : Char) : Bool := [' ', '\t', '\n', '\r', '\x0c', '\x0b', byteOrderMark].contains char

def isWordStart (char : Char) : Bool := char.isAlpha || char = '_' || (0x80 ≤ char.toNat && char ≠ byteOrderMark)

def isWordPart (char : Char) : Bool :=
  char.isAlphanum || char = '_' || char = '$' || (0x80 ≤ char.toNat && char ≠ byteOrderMark)

/-! ## One turn of the loop -/

/-- What follows an opening quote; with `doubles` a doubled `close` stands for one. -/
def quoted (close : Char) (doubles : Bool) : List Char → Body
  | [] => ⟨[], 0, false⟩
  | [char] => if char = close then ⟨[], 1, true⟩ else ⟨[char], 1, false⟩
  | char :: next :: rest =>
    if doubles && char = close && next = close then (quoted close doubles rest).after [close] 2
    else if char = close then ⟨[], 1, true⟩
    else (quoted close doubles (next :: rest)).after [char] 1

def lexAt (char : Char) (rest : List Char) : Scan.Piece Lexeme :=
  let next := rest.head?
  if isSpace char then ⟨.blank true, 0⟩
  else if char = '-' ∧ next = some '-' then ⟨.blank true, 1 + (rest.tail.takeWhile (· ≠ '\n')).length⟩
  else if char = '/' ∧ next = some '*' then
    match indexOf ['*', '/'] rest.tail with
    | some stop => ⟨.blank true, 1 + (stop + 2)⟩
    | none => ⟨.blank false, rest.length⟩
  else if char = '\'' then
    let body := quoted '\'' true rest
    ⟨.string (some body.text) body.closed, body.size⟩
  -- A double quote or a back quote.
  else if char = '"' ∨ char = '\x60' then
    let body := quoted char true rest
    ⟨.quoted body.text body.closed, body.size⟩
  else if char = '[' then
    let body := quoted ']' false rest
    ⟨.quoted body.text body.closed, body.size⟩
  else if isWordStart char then
    let part := rest.takeWhile isWordPart
    ⟨.word (char :: part), part.length⟩
  else ⟨.punct char, 0⟩

/-! ## The whole text -/

def lexRule : Scan.Rule Char Lexeme := fun char rest => some (lexAt char rest)

def lexemes (sql : List Char) : Lexemes := Scan.scan lexRule sql

def lexSqlite (sql : List Char) : Lexed := lexFrom 1 (lexemes sql)

end Fabrika.Platform.SqliteSql
