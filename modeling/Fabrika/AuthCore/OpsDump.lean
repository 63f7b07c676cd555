/-
  Fabrika.AuthCore.OpsDump — the dump format of auth-core/ops.ts: values, rows, lines, the fold
  of a table's hash, and the cursor, table and part records of the wire.

  A 64-bit integer travels as its decimal text, which names it exactly, so a rowid is the number.
  A real is its shortest round-trip text, as `String` answers it. SHA-256 is `Digest`.
-/

import Mathlib

namespace Fabrika.AuthCore.OpsDump

abbrev Text := List Char

abbrev Bytes := List UInt8

/-! ## Bounds -/

def pageRows : Nat := 1000

def partSize : Nat := 8 * 1024 * 1024

def partMaxRawBytes : Nat := 16 * 1024 * 1024

def partMaxRows : Nat := 50000

/-- R2's most parts in one multipart upload. -/
def maxParts : Nat := 10000

/-- `Number.MAX_SAFE_INTEGER`. -/
def maxSafeInteger : Nat := 2 ^ 53 - 1

/-! ## Values and lines -/

def isInt64 (n : Int) : Prop := -2 ^ 63 ≤ n ∧ n < 2 ^ 63

/-- What `isInt64Text` admits. -/
abbrev Rowid := { n : Int // isInt64 n }

inductive Value
  | null
  | integer (value : Rowid)
  | real (shortest : String)
  | text (bytes : Bytes)
  | blob (bytes : Bytes)
  deriving DecidableEq

def hexDigit (n : Nat) : Char := "0123456789ABCDEF".toList.getD n '0'

def hex (bytes : Bytes) : Text := bytes.flatMap fun b => [hexDigit (b.toNat / 16), hexDigit (b.toNat % 16)]

/-- `encodeValue` as `JSON.stringify` writes it: no tagged text holds a character it escapes. -/
def encodeValue : Value → Text
  | .null => "null".toList
  | .integer value => "\"i:".toList ++ (toString value.1).toList ++ "\"".toList
  | .real shortest => "\"r:".toList ++ shortest.toList ++ "\"".toList
  | .text bytes => "\"t:".toList ++ hex bytes ++ "\"".toList
  | .blob bytes => "\"b:".toList ++ hex bytes ++ "\"".toList

theorem encodeValue_null : encodeValue .null = "null".toList := rfl

theorem encodeValue_integer (value : Rowid) :
    encodeValue (.integer value) = "\"i:".toList ++ (toString value.1).toList ++ "\"".toList := rfl

theorem encodeValue_real (shortest : String) : encodeValue (.real shortest) = "\"r:".toList ++ shortest.toList ++ "\"".toList :=
  rfl

theorem encodeValue_text (bytes : Bytes) : encodeValue (.text bytes) = "\"t:".toList ++ hex bytes ++ "\"".toList := rfl

theorem encodeValue_blob (bytes : Bytes) : encodeValue (.blob bytes) = "\"b:".toList ++ hex bytes ++ "\"".toList := rfl

def encodeOpsDumpRow (values : List Value) : Text :=
  "[".toList ++ List.intercalate [','] (values.map encodeValue) ++ "]".toList

def lineStart (table : String) : Text := "\x7b\"table\":\"".toList ++ table.toList ++ "\",\"row\":".toList

def encodeOpsDumpLine (table : String) (values : List Value) : Text := lineStart table ++ encodeOpsDumpRow values ++ "\x7d".toList

/-- `TextEncoder.encode`. -/
def utf8 (text : Text) : Bytes := text.flatMap String.utf8EncodeChar

/-- `TextDecoder.decode` of what `utf8` wrote. -/
def decodeUtf8 (bytes : Bytes) : Text :=
  match bytes.toByteArray.utf8Decode? with
  | some chars => chars.toList
  | none => []

/-- `TABLE_NAME`. -/
def isTableName (name : String) : Bool :=
  match name.toList with
  | [] => false
  | c :: rest =>
    (('a' ≤ c && c ≤ 'z') || c == '_') && rest.all (fun c => ('a' ≤ c && c ≤ 'z') || ('0' ≤ c && c ≤ '9') || c == '_')
      && rest.length ≤ 62

/-! ## Hashes -/

/-- `SHA256_HEX`. -/
def isSha256Hex (hash : String) : Bool :=
  hash.length == 64 && hash.toList.all fun c => ('0' ≤ c && c ≤ '9') || ('a' ≤ c && c ≤ 'f')

/-- SHA-256, whose hex is 64 lower-case digits. -/
structure Digest where
  sha256Hex : Text → String
  hex_digits : ∀ text, isSha256Hex (sha256Hex text) = true

variable (digest : Digest)

/-- `OPS_EMPTY_TABLE_HASH`. -/
def emptyTableHash : String := digest.sha256Hex []

def foldRow (hash : String) (row : Text) : String := digest.sha256Hex (hash.toList ++ '\n' :: row)

/-- It throws on a hash that is none. -/
def foldOpsTableHash (hash : String) (rows : List Text) : Option String :=
  if isSha256Hex hash then some (rows.foldl (foldRow digest) hash) else none

/-! ## Records of the wire -/

structure Cursor where
  table : String
  after : Option Rowid
  rows : Nat
  hash : String
  deriving DecidableEq

structure DumpTable where
  name : String
  rows : Nat
  hash : String
  deriving DecidableEq

/-- What `readCursor` accepts: before a table's first row nothing is folded; past a row, at least
    that row is. -/
def readCursor (cursor : Cursor) : Bool :=
  isTableName cursor.table && decide (cursor.rows ≤ maxSafeInteger) && isSha256Hex cursor.hash
    && (cursor.after.isNone == (cursor.rows == 0)) && !(cursor.rows == 0 && cursor.hash != emptyTableHash digest)

def readDumpTable (table : DumpTable) : Bool :=
  isTableName table.name && decide (table.rows ≤ maxSafeInteger) && isSha256Hex table.hash
    && !(table.rows == 0 && table.hash != emptyTableHash digest)

def readTables (tables : List DumpTable) : Bool := tables.all (readDumpTable digest) && decide (tables.map (·.name)).Nodup

/-- Numbered from 1, at most R2's count. -/
def readPartNumber (part : Nat) : Bool := 1 ≤ part && part ≤ maxParts

/-! ## Basic facts -/

theorem utf8_append (a b : Text) : utf8 (a ++ b) = utf8 a ++ utf8 b := List.flatMap_append

theorem decodeUtf8_utf8 (text : Text) : decodeUtf8 (utf8 text) = text := by
  have hencoded : (utf8 text).toByteArray = text.utf8Encode := rfl
  unfold decodeUtf8
  rw [hencoded, List.utf8Decode?_utf8Encode]

theorem sha_of_foldl (hash : String) (rows : List Text) (h : isSha256Hex hash = true) :
    isSha256Hex (rows.foldl (foldRow digest) hash) = true := by
  induction rows generalizing hash with
  | nil => exact h
  | cons row rest ih => exact ih _ (digest.hex_digits _)

end Fabrika.AuthCore.OpsDump
