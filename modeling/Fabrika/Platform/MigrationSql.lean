/-
  Fabrika.Platform.MigrationSql — the tokenizer every SQL check of the platform reads through, and
  the statements it splits a text into.

  A text is its characters. One turn of the tokenizer's loop is `lexAt`: the token that starts
  where the loop stands, what of the text it takes, and whether it closes. A character outside the
  basic plane is two code units in the source; both are parts of a name, as the character is here.
-/

import Fabrika.Lib.Scan

namespace Fabrika.Platform.MigrationSql

open Fabrika.Lib

/-! ## Characters -/

def isSpace (char : Char) : Bool := [' ', '\t', '\n', '\r', '\x0c', '\x0b'].contains char

def isWordStart (char : Char) : Bool := char.isAlpha || char = '_' || 0x80 ≤ char.toNat

def isWordPart (char : Char) : Bool := char.isAlphanum || char = '_' || char = '$' || 0x80 ≤ char.toNat

/-- What may follow the first character of a tag's name: a part of a word other than `$`. -/
def isTagPart (char : Char) : Bool := char.isAlphanum || char = '_' || 0x80 ≤ char.toNat

/-- The match of `DOLLAR_TAG` at the front of the text. -/
def dollarTagAt : List Char → Option (List Char)
  | '$' :: rest =>
    let name := match rest with
      | [] => []
      | first :: more => if isWordStart first then first :: more.takeWhile isTagPart else []
    match rest.drop name.length with
    | '$' :: _ => some ('$' :: name ++ ['$'])
    | _ => none
  | _ => none

/-! ## Tokens -/

/-- `text` of a string is its value for a plain one; an `E'…'` string has none. -/
inductive SqlToken
  | word (text : List Char) (line : Nat)
  | quoted (text : List Char) (line : Nat)
  | string (text : Option (List Char)) (line : Nat)
  | dollar (body : List Char) (line : Nat)
  | punct (char : Char) (line : Nat)
  deriving DecidableEq

def SqlToken.line : SqlToken → Nat
  | .word _ line | .quoted _ line | .string _ line | .dollar _ line | .punct _ line => line

def SqlToken.isSemicolon : SqlToken → Bool
  | .punct char _ => char = ';'
  | _ => false

/-- What one turn of the loop reads: a token whose line is not set yet, or whitespace or a comment. -/
inductive Lexeme
  | blank (closed : Bool)
  | word (text : List Char)
  | quoted (text : List Char) (closed : Bool)
  | string (text : Option (List Char)) (closed : Bool)
  | dollar (body : List Char) (closed : Bool)
  | punct (char : Char)
  deriving DecidableEq

def Lexeme.closed : Lexeme → Bool
  | .blank closed | .quoted _ closed | .string _ closed | .dollar _ closed => closed
  | .word _ | .punct _ => true

def Lexeme.token (line : Nat) : Lexeme → Option SqlToken
  | .blank _ => none
  | .word text => some (.word text line)
  | .quoted text _ => some (.quoted text line)
  | .string text _ => some (.string text line)
  | .dollar body _ => some (.dollar body line)
  | .punct char => some (.punct char line)

/-! ## One turn of the loop -/

/-- A block comment from its `/*` on: what it takes, and the nesting that is left where it stops. -/
def blockComment : Nat → List Char → Nat × Nat
  | nesting, [] => (0, nesting)
  | nesting, [_] => (1, nesting)
  | nesting, char :: next :: rest =>
    if char = '/' ∧ next = '*' then
      let later := blockComment (nesting + 1) rest
      (later.1 + 2, later.2)
    else if char = '*' ∧ next = '/' then
      if nesting - 1 = 0 then (2, 0)
      else
        let later := blockComment (nesting - 1) rest
        (later.1 + 2, later.2)
    else
      let later := blockComment nesting (next :: rest)
      (later.1 + 1, later.2)

structure Body where
  text : List Char
  /-- The characters it takes, its closing quote included. -/
  size : Nat
  closed : Bool
  deriving DecidableEq

def Body.after (text : List Char) (size : Nat) (later : Body) : Body :=
  ⟨text ++ later.text, size + later.size, later.closed⟩

/-- What follows an opening quote: a doubled quote stands for one, and with escapes a backslash takes the next character. -/
def quotedBody (quote : Char) (escapes : Bool) : List Char → Body
  | [] => ⟨[], 0, false⟩
  | [char] =>
    if escapes && char = '\\' then ⟨[], 1, false⟩
    else if char = quote then ⟨[], 1, true⟩
    else ⟨[char], 1, false⟩
  | char :: next :: rest =>
    if escapes && char = '\\' then (quotedBody quote escapes rest).after [] 2
    else if char = quote && next = quote then (quotedBody quote escapes rest).after [quote] 2
    else if char = quote then ⟨[], 1, true⟩
    else (quotedBody quote escapes (next :: rest)).after [char] 1

def indexOf (part : List Char) : List Char → Option Nat
  | [] => if part.isEmpty then some 0 else none
  | char :: rest => if part.isPrefixOf (char :: rest) then some 0 else (indexOf part rest).map (· + 1)

def lexAt (char : Char) (rest : List Char) : Scan.Piece Lexeme :=
  let next := rest.head?
  let tag := if char = '$' then dollarTagAt (char :: rest) else none
  if isSpace char then ⟨.blank true, 0⟩
  else if char = '-' ∧ next = some '-' then
    -- A comment ends before a line feed or a carriage return.
    ⟨.blank true, 1 + (rest.tail.takeWhile fun c => c ≠ '\n' && c ≠ '\r').length⟩
  else if char = '/' ∧ next = some '*' then
    let comment := blockComment 0 (char :: rest)
    ⟨.blank (comment.2 = 0), comment.1 - 1⟩
  else if char = '\'' ∨ ((char = 'E' ∨ char = 'e') ∧ next = some '\'') then
    let escapes := char ≠ '\''
    let body := quotedBody '\'' escapes (if escapes then rest.tail else rest)
    ⟨.string (if escapes then none else some body.text) body.closed, (if escapes then 1 else 0) + body.size⟩
  else if char = '"' then
    let body := quotedBody '"' false rest
    ⟨.quoted body.text body.closed, body.size⟩
  else match tag with
    | some tag =>
      let body := rest.drop (tag.length - 1)
      match indexOf tag body with
      | some stop => ⟨.dollar (body.take stop) true, tag.length - 1 + (stop + tag.length)⟩
      | none => ⟨.dollar body false, rest.length⟩
    | none =>
      if isWordStart char then
        let part := rest.takeWhile isWordPart
        ⟨.word (char :: part), part.length⟩
      else ⟨.punct char, 0⟩

/-! ## The whole text -/

structure Lexed where
  tokens : List SqlToken
  /-- The line of the first token or comment that never closes. -/
  unterminated : Option Nat
  deriving DecidableEq

abbrev Lexemes := List (Scan.Piece Lexeme × List Char)

def lexRule : Scan.Rule Char Lexeme := fun char rest => some (lexAt char rest)

def lexemes (sql : List Char) : Lexemes := Scan.scan lexRule sql

/-- The loop's tokens and its `unterminated`, from a line on. -/
def lexFrom : Nat → Lexemes → Lexed
  | _, [] => ⟨[], none⟩
  | line, (piece, text) :: later =>
    let after := lexFrom (line + text.count '\n') later
    { tokens := (piece.kind.token line).toList ++ after.tokens
      unterminated := if piece.kind.closed then after.unterminated else some line }

def lexSql (sql : List Char) : Lexed := lexFrom 1 (lexemes sql)

def sqlTokens (sql : List Char) : List SqlToken := (lexSql sql).tokens

structure Statement where
  tokens : List SqlToken
  line : Nat
  deriving DecidableEq

/-- A statement is kept when it has a token. -/
def closeStatement : List SqlToken → List Statement
  | [] => []
  | first :: rest => [⟨first :: rest, first.line⟩]

def statementsFrom (current : List SqlToken) : List SqlToken → List Statement
  | [] => closeStatement current
  | token :: rest =>
    if token.isSemicolon then closeStatement current ++ statementsFrom [] rest
    else statementsFrom (current ++ [token]) rest

def statementsOf (all : List SqlToken) : List Statement := statementsFrom [] all

def topLevelStatements (sql : List Char) : List Statement := statementsOf (sqlTokens sql)

end Fabrika.Platform.MigrationSql
