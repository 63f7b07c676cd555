/-
  Fabrika.Platform.PostgresScan — how Postgres divides a text into code, whitespace and comments,
  string constants, quoted identifiers and dollar-quoted bodies, with `standard_conforming_strings`
  on. This is the scanner the tokenizer is held to, written from Postgres' rules (scan.l, 17).

  An operator ends before a comment it would run into, so its characters are read one by one here.
  A number has to be read whole: the scanner refuses it when an identifier that starts inside it or
  right after it runs past its end (`trailing junk after numeric literal`), and nothing after that
  is scanned. What it finds wrong with the value of a constant, once its end is known, is not part
  of how the text is divided.
-/

import Fabrika.Lib.Scan

namespace Fabrika.Platform.Postgres

open Fabrika.Lib

inductive Class
  | code
  | blank
  | string
  | quoted
  | dollar
  deriving DecidableEq

/-- What stands before the opening quote of a constant or an identifier. -/
inductive Introducer
  | none
  /-- `E`: backslash escapes. -/
  | escape
  /-- `B` or `X`: a bit string. -/
  | bits
  /-- `U&`: Unicode escapes, in a string or an identifier. -/
  | unicode
  deriving DecidableEq

structure Token where
  cls : Class
  closed : Bool
  introducer : Introducer
  /-- A string constant of several pieces, continued over line breaks. -/
  continued : Bool
  deriving DecidableEq

def Token.plain (cls : Class) (closed : Bool) : Token := ⟨cls, closed, .none, false⟩

/-! ## Characters -/

def newline (c : Char) : Bool := c = '\n' || c = '\r'

def space (c : Char) : Bool := c = ' ' || c = '\t' || newline c || c = '\x0c' || c = '\x0b'

def identStart (c : Char) : Bool := c.isAlpha || c = '_' || 0x80 ≤ c.toNat

def identCont (c : Char) : Bool := identStart c || c.isDigit || c = '$'

def dolqCont (c : Char) : Bool := identStart c || c.isDigit

/-! ## Comments and quoted text -/

/-- The end of a block comment, from inside it at the given depth. -/
def commentEnd : Nat → List Char → Option Nat
  | _, [] => none
  | depth, '/' :: '*' :: rest => (commentEnd (depth + 1) rest).map (· + 2)
  | 0, '*' :: '/' :: _ => some 2
  | depth + 1, '*' :: '/' :: rest => (commentEnd depth rest).map (· + 2)
  | depth, _ :: rest => (commentEnd depth rest).map (· + 1)

/-- The end of a quoted identifier, from behind its opening quote. -/
def identifierEnd : List Char → Option Nat
  | [] => none
  | '"' :: '"' :: rest => (identifierEnd rest).map (· + 2)
  | '"' :: _ => some 1
  | _ :: rest => (identifierEnd rest).map (· + 1)

/-- The end of one piece of a string constant. A bit string has no doubled quotes; two of its pieces then meet there. -/
def pieceEnd (introducer : Introducer) : List Char → Option Nat
  | [] => none
  | '\\' :: c :: rest =>
    if introducer = .escape then (pieceEnd introducer rest).map (· + 2)
    else (pieceEnd introducer (c :: rest)).map (· + 1)
  | '\'' :: '\'' :: rest =>
    if introducer = .bits then some 1
    else (pieceEnd introducer rest).map (· + 2)
  | '\'' :: _ => some 1
  | _ :: rest => (pieceEnd introducer rest).map (· + 1)

/--
  The next piece of a constant after the quote that closes one: whitespace and comments with a line
  break among them, then a quote. `seen` is whether the line break has come, `comment` whether a
  comment is being passed.
-/
def continuation (seen comment : Bool) : List Char → Option Nat
  | [] => none
  | c :: rest =>
    if newline c then (continuation true false rest).map (· + 1)
    else if comment then (continuation seen true rest).map (· + 1)
    else if space c then (continuation seen false rest).map (· + 1)
    else if c = '-' ∧ rest.head? = some '-' then (continuation seen true rest).map (· + 1)
    else if c = '\'' ∧ seen then some 1
    else none

/-- A string constant from behind its opening quote: what it takes and whether it closes. -/
def constantEnd (introducer : Introducer) : Nat → List Char → Nat × Bool
  | 0, text => (text.length, false)
  | fuel + 1, text =>
    match pieceEnd introducer text with
    | none => (text.length, false)
    | some size =>
      match continuation false false (text.drop size) with
      | none => (size, true)
      | some gap =>
        let later := constantEnd introducer fuel (text.drop (size + gap))
        (size + gap + later.1, later.2)

def isContinued (introducer : Introducer) (text : List Char) : Bool :=
  match pieceEnd introducer text with
  | none => false
  | some size => (continuation false false (text.drop size)).isSome

/-! ## Dollar quotes -/

def delimiter : List Char → Option (List Char)
  | '$' :: rest =>
    let name := match rest with
      | [] => []
      | first :: more => if identStart first then first :: more.takeWhile dolqCont else []
    match rest.drop name.length with
    | '$' :: _ => some ('$' :: name ++ ['$'])
    | _ => none
  | _ => none

/-- The body ends at the first delimiter that is the opening one. -/
def dollarEnd (tag : List Char) : List Char → Option Nat
  | [] => none
  | c :: rest => if delimiter (c :: rest) = some tag then some tag.length else (dollarEnd tag rest).map (· + 1)

/-! ## Numbers -/

/-- Digits with single underscores between or before them: `(_?digit)*`. -/
def grouped (digit : Char → Bool) : List Char → List Char
  | [] => []
  | [c] => if digit c then [c] else []
  | c :: d :: rest =>
    if digit c then c :: grouped digit (d :: rest)
    else if c = '_' && digit d then c :: d :: grouped digit rest
    else []

def decinteger (text : List Char) : List Char :=
  match text with
  | [] => []
  | c :: _ => if c.isDigit then grouped Char.isDigit text else []

/-- The digits of the integers `0x…`, `0o…` and `0b…`, by the letter. -/
def radixDigit (letter c : Char) : Bool :=
  if letter = 'x' || letter = 'X' then c.isDigit || ('a' ≤ c && c ≤ 'f') || ('A' ≤ c && c ≤ 'F')
  else if letter = 'o' || letter = 'O' then '0' ≤ c && c ≤ '7'
  else if letter = 'b' || letter = 'B' then c = '0' || c = '1'
  else false

def radixInteger : List Char → List Char
  | '0' :: letter :: rest =>
    let digits := grouped (radixDigit letter) rest
    if digits.isEmpty then [] else '0' :: letter :: digits
  | _ => []

/-- An integer or a number with a point; of `1..` only the integer. -/
def mantissa (text : List Char) : List Char :=
  let whole := decinteger text
  match text.drop whole.length with
  | '.' :: rest =>
    let fraction := decinteger rest
    if whole.isEmpty && fraction.isEmpty then []
    else if !whole.isEmpty && whole.all Char.isDigit && rest.head? = some '.' then whole
    else whole ++ '.' :: fraction
  | _ => whole

def exponent (text : List Char) : List Char :=
  match text with
  | [] => []
  | e :: rest =>
    if e = 'e' || e = 'E' then
      match rest with
      | [] => []
      | sign :: after =>
        if sign = '+' || sign = '-' then
          if (decinteger after).isEmpty then [] else e :: sign :: decinteger after
        else if (decinteger rest).isEmpty then [] else e :: decinteger rest
    else []

/-- The longest number at the front of the text. -/
def numeral (text : List Char) : List Char :=
  let radix := radixInteger text
  if radix.isEmpty then mantissa text ++ exponent (text.drop (mantissa text).length) else radix

/-- Whether an identifier is still open at the end of a text, when one was (`inside`) at its front. -/
def within : Bool → List Char → Bool
  | inside, [] => inside
  | inside, c :: rest => within (identStart c || (inside && identCont c)) rest

/-- An identifier begun inside the number, or right after it, runs past its end. -/
def trailingJunk (number rest : List Char) : Bool :=
  match rest with
  | [] => false
  | c :: _ => within false (number ++ [c])

/-! ## The next token -/

def code (more : Nat) : Scan.Piece Token := ⟨.plain .code true, more⟩

/-- A constant whose opening quote is the last of the `lead` characters after the first. -/
def constant (introducer : Introducer) (lead : Nat) (text : List Char) : Scan.Piece Token :=
  let stop := constantEnd introducer text.length text
  ⟨⟨.string, stop.2, introducer, isContinued introducer text⟩, lead + stop.1⟩

def quotedIdentifier (introducer : Introducer) (lead : Nat) (text : List Char) : Scan.Piece Token :=
  match identifierEnd text with
  | some size => ⟨⟨.quoted, true, introducer, false⟩, lead + size⟩
  | none => ⟨⟨.quoted, false, introducer, false⟩, lead + text.length⟩

/-- A positional parameter, a dollar-quoted body or a `$` alone. -/
def dollar (rest : List Char) : Option (Scan.Piece Token) :=
  match delimiter ('$' :: rest) with
  | some tag =>
    let body := rest.drop (tag.length - 1)
    match dollarEnd tag body with
    | some size => some ⟨.plain .dollar true, tag.length - 1 + size⟩
    | none => some ⟨.plain .dollar false, rest.length⟩
  | none =>
    let digits := rest.takeWhile Char.isDigit
    -- A parameter is refused as a number is: `$1a`.
    if !digits.isEmpty && trailingJunk digits (rest.drop digits.length) then none else some (code digits.length)

def number (text : List Char) : Option (Scan.Piece Token) :=
  let literal := numeral text
  if trailingJunk literal (text.drop literal.length) then none else some (code (literal.length - 1))

/-- An identifier or keyword, or the constant a letter introduces. -/
def word (c : Char) (rest : List Char) : Scan.Piece Token :=
  match rest with
  | '\'' :: after =>
    if c = 'E' || c = 'e' then constant .escape 1 after
    else if c = 'B' || c = 'b' || c = 'X' || c = 'x' then constant .bits 1 after
    else code (rest.takeWhile identCont).length
  | '&' :: '\'' :: after =>
    if c = 'U' || c = 'u' then constant .unicode 2 after else code (rest.takeWhile identCont).length
  | '&' :: '"' :: after =>
    if c = 'U' || c = 'u' then quotedIdentifier .unicode 2 after else code (rest.takeWhile identCont).length
  | _ => code (rest.takeWhile identCont).length

def token (c : Char) (rest : List Char) : Option (Scan.Piece Token) :=
  if space c then some ⟨.plain .blank true, 0⟩
  else if c = '-' ∧ rest.head? = some '-' then
    some ⟨.plain .blank true, (rest.takeWhile fun c => !newline c).length⟩
  else if c = '/' ∧ rest.head? = some '*' then
    match commentEnd 0 rest.tail with
    | some size => some ⟨.plain .blank true, 1 + size⟩
    | none => some ⟨.plain .blank false, rest.length⟩
  else if c = '\'' then some (constant .none 0 rest)
  else if c = '"' then some (quotedIdentifier .none 0 rest)
  else if c = '$' then dollar rest
  else if c = '.' ∧ rest.head? = some '.' then some (code 1)
  else if c.isDigit ∨ (c = '.' ∧ rest.head?.any Char.isDigit) then number (c :: rest)
  else if identStart c then some (word c rest)
  else some (code 0)

/-! ## The whole text -/

/-- The class of each character, up to where the scanner refuses the text. -/
def classes (text : List Char) : List Class := Scan.marks token (·.cls) text

/-- A string, quoted identifier, dollar-quoted body or block comment never closes. -/
def unterminated (text : List Char) : Bool := (Scan.scan token text).any fun p => !p.1.kind.closed

/-- The scanner reads the text to its end. -/
def readsAll (text : List Char) : Bool := (classes text).length = text.length

/-- The offsets of the semicolons at code level, where each character of the text has a class. -/
def codeSemicolons (text : List Char) (classes : List Class) : List Nat :=
  ((text.zip classes).zipIdx.filter fun x => x.1 = (';', Class.code)).map (·.2)

def semicolons (text : List Char) : List Nat := codeSemicolons text (classes text)

/-- Neither a continued constant, nor one that `B`, `X` or `U&` introduces. -/
def Token.ordinary (token : Token) : Bool :=
  !token.continued && (token.introducer = .none || token.introducer = .escape)

/-- The scanner meets ordinary tokens only. -/
def ordinary (text : List Char) : Bool := (Scan.scan token text).all (·.1.kind.ordinary)

end Fabrika.Platform.Postgres
