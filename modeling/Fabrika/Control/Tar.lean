/-
  Fabrika.Control.Tar — the tar codecs of archive.ts: the pax records and the 512-byte headers
  Control reads of a source tarball and writes into the archive it sends on.

  A string is a text of code units. `TextEncoder` writes U+FFFD for a surrogate without its
  partner; the fatal `TextDecoder` drops a leading byte order mark. Every check that fails
  throws the one failure of the archive stage.
-/

import Fabrika.Lib.Double
import Fabrika.Lib.Fields
import Fabrika.Lib.Utf16
import Fabrika.Lib.Utf8

namespace Fabrika.Control.Tar

open Fabrika.Lib
open Fabrika.Lib.Fields
open Fabrika.Lib.Urlencoded (Bytes)

/-! ## Failures and texts -/

inductive SourceFailureCode
  | commitMismatch
  | descriptorMissing
  | descriptorMismatch
  | archiveRejected
  deriving DecidableEq

inductive SourceFailureStage
  | resolve
  | archive
  | upload
  | credentials
  deriving DecidableEq

structure SourceFailure where
  code : SourceFailureCode
  stage : SourceFailureStage
  deriving DecidableEq

def archiveRejected : SourceFailure := ⟨.archiveRejected, .archive⟩

abbrev Checked := Except SourceFailure

/-- `new TextEncoder().encode`. -/
def encode (text : Units) : Bytes := Urlencoded.utf8 (usvString text)

def decodeUtf8 (bytes : Bytes) : Checked Units :=
  match Utf8.decodeFatal bytes with
  | some text => .ok (codeUnits text)
  | none => .error archiveRejected

/-- `Number.MAX_SAFE_INTEGER`, which is also the most bytes a `Uint8Array` holds. -/
def maxSafeInteger : Nat := 2 ^ 53 - 1

/-- A `Uint8Array`. -/
structure SourceBytes where
  bytes : Bytes
  length_le : bytes.length ≤ maxSafeInteger

/-! ## Pax records -/

/-- `DECIMAL_PATTERN`. -/
def isDecimal : Units → Bool
  | [] => false
  | u :: rest => (u == 0x30 && rest == []) || (0x31 ≤ u && u ≤ 0x39 && rest.all Json.isDigit)

/-- `Map.set`. -/
def setRecord (key value : Units) : List (Units × Units) → List (Units × Units)
  | [] => [(key, value)]
  | (other, old) :: rest => if other = key then (key, value) :: rest else (other, old) :: setRecord key value rest

/-- What one turn of the loop reads of the bytes left: the record's length, its keyword and
    its value. -/
def readPaxRecord (rest : Bytes) : Checked (Nat × Units × Units) :=
  match rest.idxOf? 0x20 with
  | none => .error archiveRejected
  | some 0 => .error archiveRejected
  | some space => do
    let declared ← decodeUtf8 (rest.take space)
    if isDecimal declared then
      let length := Json.decimal declared
      if maxSafeInteger < length ∨ length ≤ space + 1 ∨ rest.length < length ∨
        rest[length - 1]? ≠ some 0x0a then .error archiveRejected
      else
        let record ← decodeUtf8 ((rest.take (length - 1)).drop (space + 1))
        match record.idxOf? 0x3d with
        | none => .error archiveRejected
        | some 0 => .error archiveRejected
        | some separator => .ok (length, record.take separator, record.drop (separator + 1))
    else .error archiveRejected

theorem readPaxRecord_length {rest : Bytes} {length : Nat} {record : Units × Units}
    (h : readPaxRecord rest = .ok (length, record)) :
    0 < length ∧ length ≤ rest.length := by
  unfold readPaxRecord at h
  split at h
  · cases h
  · cases h
  · simp only [bind, Except.bind] at h
    split at h
    · cases h
    split at h
    · split at h
      · cases h
      · next hlength =>
        split at h
        · cases h
        split at h
        · cases h
        · cases h
        · cases h
          omega
    · cases h

def paxRecordsFrom (records : List (Units × Units)) (rest : Bytes) : Checked (List (Units × Units)) :=
  if rest = [] then .ok records
  else
    match _h : readPaxRecord rest with
    | .error failure => .error failure
    | .ok (length, keyword, value) => paxRecordsFrom (setRecord keyword value records) (rest.drop length)
termination_by rest.length
decreasing_by
  have hlength := readPaxRecord_length _h
  rw [List.length_drop]
  omega

def parsePaxRecords (payload : SourceBytes) : Checked (List (Units × Units)) := paxRecordsFrom [] payload.bytes

def paxBody (key value : Units) : Units := key ++ 0x3d :: value ++ [0x0a]

/-- `${length} ${body}`. -/
def paxText (length : Nat) (body : Units) : Units := Double.digits length ++ 0x20 :: body

/-- The turns of the loop that looks for a length the record has, as many as are left;
    nothing where they run out. -/
def paxRounds (body : Units) : Nat → Nat → Option Bytes
  | 0, _ => none
  | rounds + 1, length =>
    let bytes := encode (paxText length body)
    if bytes.length = length then some bytes else paxRounds body rounds bytes.length

def paxStart (body : Units) : Nat := (encode body).length + 3

/-- The loop has no bound; it needs no fourth turn (`paxRounds_eq`). -/
def paxRecord (key value : Units) : Option Bytes := paxRounds (paxBody key value) 3 (paxStart (paxBody key value))

/-! ## Headers -/

def blockBytes : Nat := 512

structure TarEntryHeader where
  linkpath : Units
  path : Units
  mode : Nat
  size : Nat
  typeflag : Units
  deriving DecidableEq

def headerText (block : Bytes) (offset length : Nat) : Checked Units :=
  let bytes := field block offset length
  decodeUtf8 (match bytes.idxOf? 0 with
    | none => bytes
    | some stop => bytes.take stop)

def isOctal (u : Nat) : Bool := 0x30 ≤ u && u ≤ 0x37

/-- `Number.parseInt(raw, 8)` of octal digits. -/
def octalValue (raw : Units) : Nat := raw.foldl (fun n u => n * 8 + (u - 0x30)) 0

def headerOctal (block : Bytes) (offset length : Nat) : Checked Nat := do
  let raw := Double.trim (← headerText block offset length)
  if raw = [] then .ok 0
  else if !raw.all isOctal then .error archiveRejected
  else if maxSafeInteger < octalValue raw then .error archiveRejected
  else .ok (octalValue raw)

def byteAt (bytes : Bytes) (index : Nat) : Checked UInt8 :=
  match bytes[index]? with
  | some byte => .ok byte
  | none => .error archiveRejected

def parseHeader (block : Bytes) : Checked TarEntryHeader := do
  let magic := Double.trim (← headerText block 257 6)
  if magic ≠ codeUnits "ustar" then .error archiveRejected
  else
    let name ← headerText block 0 100
    let before ← headerText block 345 155
    let typeflag ← byteAt block 156
    return {
      linkpath := ← headerText block 157 100
      path := if before = [] then name else before ++ 0x2f :: name
      mode := ← headerOctal block 100 8
      size := ← headerOctal block 124 12
      typeflag := if typeflag = 0 then codeUnits "0" else [typeflag.toNat] }

/-- One turn of the checksum's loop: the sum so far and the index of the next byte. -/
def addByte : Nat × Nat → UInt8 → Nat × Nat
  | (sum, index), byte => (sum + (if 148 ≤ index ∧ index < 156 then 0x20 else byte.toNat), index + 1)

def verifyChecksum (block : Bytes) : Checked Unit := do
  let stored ← headerOctal block 148 8
  if (block.foldl addByte (0, 0)).1 ≠ stored then .error archiveRejected else .ok ()

inductive TarType
  | file
  | directory
  | symlink
  | pax
  deriving DecidableEq

def TarType.text : TarType → String
  | .file => "0"
  | .directory => "5"
  | .symlink => "2"
  | .pax => "x"

/-- `type.charCodeAt(0)`. -/
def TarType.code : TarType → UInt8
  | .file => 0x30
  | .directory => 0x35
  | .symlink => 0x32
  | .pax => 0x78

def writeTarText (target : Bytes) (offset length : Nat) (value : Units) : Checked Bytes :=
  if length < (encode value).length then .error archiveRejected else .ok (write target offset (encode value))

/-- `value.toString(8).padStart(width, '0')`. -/
def octalText (width value : Nat) : Units :=
  let digits := (Nat.toDigits 8 value).map Char.toNat
  List.replicate (width - digits.length) 0x30 ++ digits

def writeTarOctal (target : Bytes) (offset length value : Nat) : Checked Bytes :=
  let encoded := octalText (length - 1) value
  if length ≤ encoded.length then .error archiveRejected
  else (writeTarText target offset (length - 1) encoded).map fun target => write target (offset + length - 1) [0]

def byteSum (bytes : Bytes) : Nat := (bytes.map UInt8.toNat).sum

def tarHeader (path : Units) (mode size : Nat) (type : TarType) (linkpath : Units) : Checked Bytes := do
  let header := List.replicate blockBytes 0
  let header ← writeTarText header 0 100 path
  let header ← writeTarOctal header 100 8 mode
  let header ← writeTarOctal header 108 8 0
  let header ← writeTarOctal header 116 8 0
  let header ← writeTarOctal header 124 12 size
  let header ← writeTarOctal header 136 12 0
  let header := write header 148 (List.replicate 8 0x20)
  let header := write header 156 [type.code]
  let header ← writeTarText header 157 100 linkpath
  let header ← writeTarText header 257 6 (codeUnits "ustar")
  let header ← writeTarText header 263 2 (codeUnits "00")
  let header ← writeTarText header 148 6 (octalText 6 (byteSum header))
  return write header 154 [0, 0x20]

end Fabrika.Control.Tar
