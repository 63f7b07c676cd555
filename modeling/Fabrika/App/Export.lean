/-
  Fabrika.App.Export — the `part` step of cloudflare/export.ts: whole rows are read in keyset
  pages while the part's bounds hold, compressed into one gzip member of the fixed size, and the
  cursor of the next part is settled from the rows the member keeps.

  `Contents` is the plan with each table's rows as `ORDER BY` the rowid answers them. The storage
  and the upload are the arguments of a step; deflate and CRC-32 are `Codec`. A loop of the source
  is a recursion on fuel that is enough for its contents.
-/

import Fabrika.AuthCore.OpsDump

namespace Fabrika.App.Export

open Fabrika.AuthCore.OpsDump

/-! ## The database -/

/-- The columns that are not generated. -/
structure Row where
  rowid : Rowid
  values : List Value

structure Table where
  name : String
  rows : List Row
  ordered : rows.Pairwise fun a b => a.rowid.1 < b.rowid.1

/-- The tables of the plan, in load order. -/
structure Contents where
  tables : List Table
  names : ∀ table ∈ tables, isTableName table.name = true
  distinct : (tables.map Table.name).Nodup

/-- The next rows by rowid. -/
def Table.page (table : Table) (after : Option Rowid) (limit : Nat) : List Row :=
  (table.rows.filter fun row => after.all (·.1 < row.rowid.1)).take limit

def Row.line (row : Row) (table : String) : Bytes := utf8 (encodeOpsDumpLine table (.integer row.rowid :: row.values) ++ ['\n'])

/-! ## Reading -/

inductive Item
  | row (table : String) (rowid : Rowid) (line : Bytes) (rowStart : Nat)
  | end' (table : String)

structure Collected where
  items : List Item
  /-- The table of the row the part could not take. -/
  breaker : Option String

inductive Refusal
  | rowTooLarge (table : Option String)
  | schemaMismatch (table : String)
  deriving DecidableEq

def valueBound : Value → Nat
  | .text bytes => 2 * bytes.length
  | .blob bytes => 2 * bytes.length
  | _ => 32

/-- At most how many bytes a row's line takes. -/
def rowBound (table : String) (row : Row) : Nat :=
  ("\x7b\"table\":\"".toList ++ table.toList ++ "\",\"row\":[]\x7d\n".toList).length + (row.values.length + 1) * 8 + 32
    + (row.values.map valueBound).sum

/-- How many of the rows surely fit. -/
def countFitting (rows : Nat) : Nat → List Nat → Nat
  | _, [] => 0
  | budget, bound :: rest =>
    if partMaxRows ≤ rows ∨ budget < bound then 0 else countFitting (rows + 1) (budget - bound) rest + 1

/-- What the part holds so far, and the last rowid read of the table at hand. -/
structure Taken where
  items : List Item
  rows : Nat
  raw : Nat
  after : Option Rowid

/-- The rows of a page, until one breaks a bound. -/
def takeRows (table : String) (rowStart : Nat) : List Row → Taken → Taken × Bool
  | [], taken => (taken, false)
  | row :: rest, taken =>
    let line := row.line table
    if partMaxRows < taken.rows + 1 ∨ partMaxRawBytes < taken.raw + line.length then (taken, true)
    else
      takeRows table rowStart rest
        ⟨taken.items ++ [.row table row.rowid line rowStart], taken.rows + 1, taken.raw + line.length, some row.rowid⟩

/-- The pages of a table; the flag tells that a row broke the part. -/
def readPages (table : Table) (rowStart : Nat) : Nat → Taken → Option (Taken × Bool)
  | 0, _ => none
  | fuel + 1, taken =>
    let bounds := (table.page taken.after pageRows).map (rowBound table.name)
    let fitting := countFitting taken.rows (partMaxRawBytes - taken.raw) bounds
    let page := if bounds.length = 0 then [] else table.page taken.after (min (fitting + 1) bounds.length)
    let read := takeRows table.name rowStart page taken
    if read.2 then some read
    else if page.length = bounds.length ∧ bounds.length < pageRows then
      some ({ read.1 with items := read.1.items ++ [.end' table.name] }, false)
    else readPages table rowStart fuel read.1

/-- A line's row starts where an empty row's `[]}` does. -/
def rowStartOf (table : String) : Nat := (encodeOpsDumpLine table []).length - 3

def collectTables (start : Cursor) : List Table → Taken → Option (Except Refusal Collected)
  | [], taken => some (.ok ⟨taken.items, none⟩)
  | table :: rest, taken =>
    let after := if table.name = start.table then start.after else none
    match readPages table (rowStartOf table.name) (table.rows.length + 1) { taken with after } with
    | none => none
    | some (read, true) =>
      some (if read.rows = 0 then .error (.rowTooLarge (some table.name)) else .ok ⟨read.items, some table.name⟩)
    | some (read, false) => collectTables start rest read

def collect (tables : List Table) (start : Option Cursor) : Option (Except Refusal Collected) :=
  match start with
  | none => some (.ok ⟨[], none⟩)
  | some start => collectTables start tables ⟨[], 0, 0, none⟩

/-! ## Settling -/

variable (digest : Digest)

def fresh (table : String) : Cursor := ⟨table, none, 0, emptyTableHash digest⟩

/-- The cursor in the table, which is fresh unless it is the one at hand. -/
def cursorAt (cursor : Cursor) (table : String) : Cursor := if cursor.table = table then cursor else fresh digest table

structure Settled where
  finished : List DumpTable
  next : Option Cursor

/-- A line's row, without the braces and the newline. -/
def rowText (line : Bytes) (rowStart : Nat) : Text := decodeUtf8 ((line.take (line.length - 2)).drop rowStart)

/-- Folds the first `count` rows into their tables' hashes; only the rows the part keeps are hashed. -/
def settle (breaker : Option String) (count : Nat) : List Item → Cursor → Nat → List DumpTable → Option Settled
  | [], cursor, _, finished => some ⟨finished, breaker.map (cursorAt digest cursor)⟩
  | .end' table :: rest, cursor, kept, finished =>
    let before := cursorAt digest cursor table
    settle breaker count rest cursor kept (finished ++ [⟨table, before.rows, before.hash⟩])
  | .row table rowid line rowStart :: rest, cursor, kept, finished =>
    if kept = count then some ⟨finished, some (cursorAt digest cursor table)⟩
    else
      let before := cursorAt digest cursor table
      match foldOpsTableHash digest before.hash [rowText line rowStart] with
      | none => none
      | some hash => settle breaker count rest ⟨table, some rowid, before.rows + 1, hash⟩ (kept + 1) finished

/-! ## Writing -/

/-- Deflate, what decompresses it, and the checksum of a gzip trailer. -/
structure Codec where
  deflateRawSync : Bytes → Bytes
  inflate : Bytes → Option Bytes
  crc32 : Bytes → Bytes
  inflates : ∀ raw, inflate (deflateRawSync raw) = some raw
  crc_length : ∀ raw, (crc32 raw).length = 4

variable (codec : Codec)

structure Filled where
  rows : Nat
  raw : Bytes
  deflate : Bytes
  last : Bool

def compressed (lines : List Bytes) (rows : Nat) (last : Bool) : Filled :=
  let raw := (lines.take rows).flatten
  ⟨rows, raw, codec.deflateRawSync raw, last⟩

def paddedOverhead : Nat := 10 + 1 + 8

def memberSize (part : Filled) : Nat := (if part.last then 10 + 8 else paddedOverhead) + part.deflate.length

def target : Nat := partSize - paddedOverhead

/-- The search for the longest prefix that fits, by interpolation and halving. -/
def search (lines : List Bytes) : Nat → Option Filled → Nat → Nat → Bool → Option Filled
  | 0, fits, _, _, _ => fits
  | fuel + 1, fits, breaksRows, breaksSize, halve =>
    let fitsRows := (fits.map (·.rows)).getD 0
    let fitsSize := (fits.map (·.deflate.length)).getD 0
    if breaksRows - fitsRows ≤ 1 then fits
    else
      let width := breaksRows - fitsRows
      let interpolated := fitsRows + width * (target - fitsSize) / max 1 (breaksSize - fitsSize)
      let guess := if halve then fitsRows + width / 2 else min (breaksRows - 1) (max (fitsRows + 1) interpolated)
      let candidate := compressed codec lines guess false
      if candidate.deflate.length ≤ target then
        search lines fuel (some candidate) breaksRows breaksSize (decide (width < 2 * (breaksRows - guess)))
      else search lines fuel fits guess candidate.deflate.length (decide (width < 2 * (guess - fitsRows)))

def Item.line? : Item → Option Bytes
  | .row _ _ line _ => some line
  | .end' _ => none

def Item.rowTable? : Item → Option String
  | .row table _ _ _ => some table
  | .end' _ => none

/-- All the rows when they fit, else the prefix found; a row that does not fit alone is refused. -/
def fill (collected : Collected) : Except Refusal Filled :=
  let lines := collected.items.filterMap Item.line?
  let all := compressed codec lines lines.length collected.breaker.isNone
  if memberSize all ≤ partSize then .ok all
  else
    match search codec lines lines.length none lines.length all.deflate.length false with
    | some fits => .ok fits
    | none => .error (.rowTooLarge (collected.items.findSome? Item.rowTable?))

/-- A length as the trailer's four little-endian bytes. -/
def uint32LE (n : Nat) : Bytes :=
  [UInt8.ofNat n, UInt8.ofNat (n / 2 ^ 8), UInt8.ofNat (n / 2 ^ 16), UInt8.ofNat (n / 2 ^ 24)]

/-- Every member but the last is padded to the part size with spaces in its comment. -/
def gzipMember (part : Filled) : Bytes :=
  [0x1F, 0x8B, 0x08, if part.last then 0 else 0x10, 0, 0, 0, 0, 0, 0xFF]
    ++ (if part.last then [] else List.replicate (partSize - memberSize part) 0x20 ++ [0])
    ++ part.deflate ++ codec.crc32 part.raw ++ uint32LE part.raw.length

/-! ## A part -/

structure Answer where
  part : Nat
  member : Bytes
  tables : List DumpTable
  next : Option Cursor

inductive Failure
  | refused (refusal : Refusal)
  | threw
  deriving DecidableEq

/-- `parseOpsExportPartAck` of an upload R2 accepted; its ETag is R2's own. -/
def parseOpsExportPartAck (answer : Answer) : Bool :=
  readPartNumber answer.part && (answer.member.length != 0 && decide (answer.member.length ≤ partSize))
    && readTables digest answer.tables && answer.next.all (readCursor digest)
    && !(answer.next.any fun next => answer.tables.any fun table => table.name == next.table)
    && (answer.next.isNone || answer.member.length == partSize)

/-- The upload: R2 keeps one part per number. -/
abbrev Upload := Nat → Option Bytes

/-- Where a part starts: its cursor, else the first table. -/
def startOf (contents : Contents) (cursor : Option Cursor) : Option Cursor :=
  cursor <|> contents.tables.head?.map fun first => fresh digest first.name

/-- What is collected from `start`, filled and settled. -/
def finish (start : Option Cursor) (n : Nat) : Except Refusal Collected → Except Failure Answer
  | .error refusal => .error (.refused refusal)
  | .ok collected =>
    match fill codec collected with
    | .error refusal => .error (.refused refusal)
    | .ok filled =>
      let settled : Option Settled := match start with
        | none => some ⟨[], none⟩
        | some start => settle digest collected.breaker filled.rows collected.items start 0 []
      match settled with
      | none => .error .threw
      | some settled => .ok ⟨n, gzipMember codec filled, settled.finished, settled.next⟩

/-- The part and where the next one starts. -/
def partOf (contents : Contents) (n : Nat) (cursor : Option Cursor) : Except Failure Answer :=
  let start := startOf digest contents cursor
  let tables : Option (List Table) := match start with
    | none => some []
    | some start =>
      if contents.tables.any (fun table : Table => table.name == start.table) then
        some (contents.tables.dropWhile fun table : Table => table.name != start.table)
      else none
  match tables with
  | none => .error (.refused (.schemaMismatch ((start.map (·.table)).getD "")))
  | some tables =>
    match collect tables start with
    | none => .error .threw
    | some collected => finish digest codec start n collected

/-- `part`: the member is uploaded, then the answer is parsed as the wire's. -/
def part (contents : Contents) (n : Nat) (cursor : Option Cursor) (upload : Upload) : Upload × Except Failure Answer :=
  match partOf digest codec contents n cursor with
  | .error failure => (upload, .error failure)
  | .ok answer =>
    (fun m => if m = n then some answer.member else upload m, if parseOpsExportPartAck digest answer then .ok answer
      else .error .threw)

/-- How a chain of parts stops. -/
inductive Stop
  | ended
  | failed (part : Nat) (failure : Failure)
  | more (cursor : Cursor)

/-- Up to `fuel` parts from the `n`th, each from the cursor the one before answered. -/
def chain (contents : Contents) : Nat → Nat → Option Cursor → Upload → List Answer × Stop × Upload
  | 0, _, cursor, upload => ([], (match cursor with | none => .ended | some cursor => .more cursor), upload)
  | fuel + 1, n, cursor, upload =>
    match part digest codec contents n cursor upload with
    | (upload, .error failure) => ([], .failed n failure, upload)
    | (upload, .ok answer) =>
      match answer.next with
      | none => ([answer], .ended, upload)
      | some next =>
        let rest := chain contents fuel (n + 1) (some next) upload
        (answer :: rest.1, rest.2)

end Fabrika.App.Export
