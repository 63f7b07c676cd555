/-
  Fabrika.App.Import — cloudflare/import.ts: the steps that load a consistent backup into a fresh
  object, from `begin` to `complete` or `discard`.

  An object is its database and its KV storage. The step's code decides which statements run and
  what the KV records; SQLite runs the statements (`Runtime.exec`, which is nothing where one
  throws), so a part and a link pass are one transaction by construction. The barrier serves one
  step at a time. What the migrations of `begin` leave behind, whole or interrupted, is the
  argument of that step. A cursor's key is the JSON of its four fields, which names it exactly, so
  the marker keeps the cursor.
-/

import Fabrika.App.Export
import Fabrika.Lib.Text

namespace Fabrika.App.Import

open Fabrika.AuthCore.OpsDump Fabrika.App.Export

/-! ## The database -/

inductive EntryType
  | table
  | index
  | trigger
  | view
  deriving DecidableEq

/-- A row of `sqlite_schema`; an automatic index has no SQL. -/
structure SchemaRow where
  type : EntryType
  name : String
  table : String
  sql : Option String
  deriving DecidableEq

structure SchemaEntry where
  type : EntryType
  name : String
  table : String
  sql : String
  deriving DecidableEq

/-- A stored real reads as the text of a number, in which neither a quote nor a comma stands. -/
def Value.isPrinted : Value → Bool
  | .real shortest => !shortest.toList.contains '"' && !shortest.toList.contains ','
  | _ => true

/-- The schema, and each table's rows as the projection of a dump reads them. -/
structure Database where
  schema : List SchemaRow
  rows : String → List Row
  ordered : ∀ table, (rows table).Pairwise fun a b => a.rowid.1 < b.rowid.1
  printed : ∀ table, ∀ row ∈ rows table, row.values.all Value.isPrinted = true

def sqliteSequence : String := "sqlite_sequence"

def dumped (name : String) : Bool :=
  !Lib.Text.startsWith name "_cf_" && (!Lib.Text.startsWith name "sqlite_" || name = sqliteSequence)

/-- Whether the object holds any table but Cloudflare's own. -/
def holdsTables (db : Database) : Bool := db.schema.any fun row => row.type = .table && !Lib.Text.startsWith row.name "_cf_"

def readDdl (db : Database) : List SchemaEntry :=
  db.schema.filterMap fun row =>
    match row.sql with
    | none => none
    | some sql => if dumped row.name && dumped row.table then some ⟨row.type, row.name, row.table, sql⟩ else none

/-- The same entries, in any order. -/
def sameDdl (left right : List SchemaEntry) : Bool := left.isPerm right

inductive Statement
  | dropTrigger (name : String)
  | setNull (table : String) (columns : List String)
  | deleteFrom (table : String)
  /-- `DELETE FROM sqlite_sequence WHERE rowid = … OR name = …`. -/
  | deleteSequence (rowid name : Value)
  | insert (table : String) (columns : List String) (values : List Value)
  | update (table : String) (sets : List (String × Value)) (keyset : String) (rowid : Value)
  | createTrigger (sql : String)

structure TablePlan where
  name : String
  keyset : String
  columns : List String
  deferred : List String
  deriving DecidableEq

structure Line where
  table : String
  row : List Value

inductive Reason
  | invalidManifest
  | fuzzyDump
  | notFresh
  | ledgerMismatch
  | schemaMismatch
  | unsupportedSchema
  | noImport
  | partMismatch
  | verifyMismatch
  deriving DecidableEq

structure Refusal where
  reason : Reason
  table : Option String
  deriving DecidableEq

/-- What the code runs on: SQLite, the plan of a schema and the decoders of a part. -/
structure Runtime where
  /-- Nothing where the statement throws. -/
  exec : Database → Statement → Option Database
  /-- `planOpsDump` of the described schema; a refusal names a table. -/
  planOpsDump : List SchemaRow → Except (Option String) (List TablePlan)
  gunzipWithin : Bytes → Nat → Option Text
  sha256OfBytes : Bytes → String
  decodeOpsDumpLine : Text → Option Line
  /-- Creating a trigger changes no row. -/
  create_rows : ∀ db sql db', exec db (.createTrigger sql) = some db' → db'.rows = db.rows

variable (runtime : Runtime)

def execAll (db : Database) : List Statement → Option Database
  | [] => some db
  | statement :: rest =>
    match runtime.exec db statement with
    | some db => execAll db rest
    | none => none

/-! ## The backup -/

structure Source where
  object : String
  dump : String
  deriving DecidableEq

structure Migration where
  bundle : String
  name : String
  checksum : String
  deriving DecidableEq

structure DumpPart where
  part : Nat
  size : Nat
  sha256 : String
  deriving DecidableEq

/-- A manifest that `parseOpsDumpManifest` accepts: its parts are numbered from 1, its tables are
    distinct and are those its DDL declares. -/
structure Manifest where
  consistent : Bool
  ddl : List SchemaEntry
  migrations : List Migration
  tables : List DumpTable
  parts : List DumpPart
  numbered : parts.map (·.part) = (List.range parts.length).map (· + 1)
  some_part : parts ≠ []
  distinct : (tables.map (·.name)).Nodup
  declared : ((ddl.filter fun entry => entry.type = .table).map (·.name)).Perm (tables.map (·.name))

structure Backup where
  manifest : Manifest
  data : Bytes

/-- The environment's bucket: the backup at a source, where its manifest is readable. -/
abbrev Bucket := Source → Option Backup

structure MigrationFile where
  name : String
  sql : Text

structure Bundle where
  bundle : String
  migrations : List MigrationFile

/-! ## KV storage -/

structure PartAck where
  part : Nat
  rows : Nat
  deferred : Nat
  deriving DecidableEq

structure LinkAck where
  part : Nat
  rows : Nat
  deriving DecidableEq

structure VerifyAck where
  tables : List DumpTable
  next : Option Cursor
  deriving DecidableEq

/-- `next` is the cursor the next step must carry, nothing once every table matched. -/
structure Verification where
  next : Option Cursor
  replay : Option (Cursor × VerifyAck)
  deriving DecidableEq

structure Marker where
  source : Source
  begun : Bool
  loaded : Nat
  verified : Option Verification
  deriving DecidableEq

/-- The keys of the import in KV storage: the marker, the receipts of the parts and link passes,
    and the receipt `complete` leaves for its source. -/
structure Kv where
  marker : Option Marker
  loadedPart : Nat → Option PartAck
  linkedPart : Nat → Option LinkAck
  completed : Source → Bool

structure Object where
  db : Database
  kv : Kv

def Object.withMarker (object : Object) (marker : Marker) : Object :=
  { object with kv := { object.kv with marker := some marker } }

inductive Answer
  | begun (parts : Nat)
  | part (ack : PartAck)
  | link (ack : LinkAck)
  | verify (ack : VerifyAck)
  | complete (source : Source)
  | discarded
  | refused (refusal : Refusal)
  /-- A statement threw, or the object stopped: the transaction rolled back. -/
  | failed
  deriving DecidableEq

def refused (reason : Reason) : Answer := .refused ⟨reason, none⟩

/-- The marker, when it names the source and records `begin` done. -/
def importing (kv : Kv) (source : Source) : Option Marker :=
  kv.marker.filter fun marker => marker.begun && marker.source = source

/-! ## begin -/

variable (digest : Digest)

/-- The files of a bundle in the order the runner applies them. -/
def byName (files : List MigrationFile) : List MigrationFile := files.mergeSort fun a b => decide (a.name ≤ b.name)

/-- Each bundle of the release cut to the manifest's ledger, which it must begin with exactly. -/
def ledgerBundles (release : List Bundle) (manifest : Manifest) : Option (List Bundle) :=
  if manifest.migrations.any fun migration => !(release.any fun bundle => bundle.bundle = migration.bundle) then none
  else release.mapM fun bundle =>
    let recorded := (manifest.migrations.filter (·.bundle = bundle.bundle)).mergeSort fun a b => decide (a.name ≤ b.name)
    let front := (byName bundle.migrations).take recorded.length
    if front.map (fun file => (file.name, digest.sha256Hex file.sql)) = recorded.map (fun m => (m.name, m.checksum)) then
      some ⟨bundle.bundle, front⟩
    else none

/-- The plan of the target's schema, which must list the manifest's tables in its order. -/
def currentPlan (db : Database) (manifest : Manifest) : Except Refusal (List TablePlan) :=
  match runtime.planOpsDump db.schema with
  | .error table => .error ⟨.unsupportedSchema, table⟩
  | .ok plan =>
    if plan.map (·.name) = manifest.tables.map (·.name) then .ok plan else .error ⟨.schemaMismatch, none⟩

/-- The triggers go, every deferred column is unset, and the tables are emptied, children first. -/
def clearing (db : Database) (plan : List TablePlan) : List Statement :=
  ((readDdl db).filter fun entry => entry.type = .trigger).map (fun entry => .dropTrigger entry.name)
    ++ (plan.filter fun table => table.deferred ≠ []).map (fun table => .setNull table.name table.deferred)
    ++ plan.reverse.map fun table => .deleteFrom table.name

/-- `begin` once the target is migrated. -/
def beginCleared (source : Source) (manifest : Manifest) (object : Object) : Object × Answer :=
  if !sameDdl (readDdl object.db) manifest.ddl then (object, refused .schemaMismatch)
  else
    match currentPlan runtime object.db manifest with
    | .error refusal => (object, .refused refusal)
    | .ok plan =>
      match execAll runtime object.db (clearing object.db plan) with
      | none => (object, .failed)
      | some db => ({ object with db }.withMarker ⟨source, true, 0, none⟩, .begun manifest.parts.length)

/-- `begin` behind the freshness check. -/
def beginMigrated (release : List Bundle) (migrated : Except Database Database) (source : Source) (manifest : Manifest)
    (object : Object) : Object × Answer :=
  if (ledgerBundles digest release manifest).isNone then (object, refused .ledgerMismatch)
  else
    let marked := if object.kv.marker.isNone then object.withMarker ⟨source, false, 0, none⟩ else object
    -- A database the framework never migrated has no ledger, and gets none.
    if manifest.migrations = [] then beginCleared runtime source manifest marked
    else
      match migrated with
      | .error db => ({ marked with db }, .failed)
      | .ok db => beginCleared runtime source manifest { marked with db }

def begin_ (bucket : Bucket) (release : List Bundle) (source : Source) (migrated : Except Database Database)
    (object : Object) : Object × Answer :=
  match bucket source with
  | none => (object, refused .invalidManifest)
  | some backup =>
    if !backup.manifest.consistent then (object, refused .fuzzyDump)
    else
      match object.kv.marker with
      | some marker =>
        if marker.source ≠ source then (object, refused .notFresh)
        else if marker.begun then (object, .begun backup.manifest.parts.length)
        else beginMigrated runtime digest release migrated source backup.manifest object
      | none =>
        if holdsTables object.db then (object, refused .notFresh)
        else beginMigrated runtime digest release migrated source backup.manifest object

/-! ## Parts -/

/-- A part's lines, its bytes checked against the manifest and each line against its table's plan. -/
def readPart (backup : Backup) (plan : List TablePlan) (part : Nat) : Except Refusal (List Line) :=
  match if part = 0 then none else backup.manifest.parts[part - 1]? with
  | none => .error ⟨.partMismatch, none⟩
  | some described =>
    let bytes := (backup.data.drop ((part - 1) * partSize)).take described.size
    if bytes.length ≠ described.size ∨ runtime.sha256OfBytes bytes ≠ described.sha256 then .error ⟨.partMismatch, none⟩
    else
      match runtime.gunzipWithin bytes partMaxRawBytes with
      | none => .error ⟨.partMismatch, none⟩
      | some text =>
        let raw := text.splitOn '\n'
        if raw.getLast? ≠ some [] ∨ partMaxRows < raw.dropLast.length then .error ⟨.partMismatch, none⟩
        else raw.dropLast.mapM fun encoded =>
          match runtime.decodeOpsDumpLine encoded with
          | none => .error ⟨.partMismatch, none⟩
          | some line =>
            match plan.find? (·.name = line.table) with
            | none => .error ⟨.partMismatch, none⟩
            | some table =>
              match line.row with
              | .integer _ :: values =>
                if values.length = table.columns.length then .ok line else .error ⟨.partMismatch, some table.name⟩
              | _ => .error ⟨.partMismatch, some table.name⟩

/-- The columns a row writes beside its rowid, each with its value: an `INTEGER PRIMARY KEY` column
    is the rowid itself. -/
def written (table : TablePlan) (values : List Value) : List (String × Value) :=
  (table.columns.zipIdx.map fun column => (column.1, values.getD column.2 .null)).filter fun column => column.1 ≠ table.keyset

def isDeferred (table : TablePlan) (column : String) : Bool := table.deferred.contains column

/-- The statements that write one row, and whether it has a deferred key for the link pass. -/
def insertRow (table : TablePlan) (row : List Value) : List Statement × Bool :=
  let rowid := row.headD .null
  let values := row.tail
  let columns := written table values
  let waits := columns.any fun column => isDeferred table column.1 && column.2 ≠ .null
  let bound := columns.map fun column => if isDeferred table column.1 then .null else column.2
  let counter := if table.name = sqliteSequence then [.deleteSequence rowid (values.headD .null)] else []
  (counter ++ [.insert table.name (table.keyset :: columns.map (·.1)) (rowid :: bound)], waits)

/-- The rows of a part; nothing where a line names a table the plan does not hold. -/
def insertRows (plan : List TablePlan) (lines : List Line) : Option (List (List Statement × Bool)) :=
  lines.mapM fun line => (plan.find? (·.name = line.table)).map fun table => insertRow table line.row

def loadPart (source : Source) (backup : Backup) (plan : List TablePlan) (part : Nat) (object : Object) : Object × Answer :=
  match object.kv.loadedPart part with
  | some recorded => (object, .part recorded)
  | none =>
    match readPart runtime backup plan part with
    | .error refusal => (object, .refused refusal)
    | .ok lines =>
      match importing object.kv source with
      | none => (object, refused .noImport)
      | some marker =>
        match insertRows plan lines with
        | none => (object, .failed)
        | some rows =>
          match execAll runtime object.db (rows.flatMap (·.1)) with
          | none => (object, .failed)
          | some db =>
            let ack : PartAck := ⟨part, lines.length, (rows.filter (·.2)).length⟩
            ({ db
               kv := { object.kv with
                 loadedPart := Function.update object.kv.loadedPart part (some ack)
                 marker := some { marker with loaded := marker.loaded + 1, verified := none } } },
              .part ack)

/-! ## Links -/

/-- The deferred columns of a row with their values; none where all are null. -/
def linkRow (table : TablePlan) (row : List Value) : List Statement :=
  let deferred := (table.columns.zipIdx.map fun column => (column.1, row.tail.getD column.2 .null)).filter
    fun column => isDeferred table column.1
  if deferred.all fun column => column.2 = .null then []
  else [.update table.name deferred table.keyset (row.headD .null)]

def linkRows (plan : List TablePlan) (lines : List Line) : Option (List (List Statement)) :=
  lines.mapM fun line => (plan.find? (·.name = line.table)).map fun table => linkRow table line.row

def linkPart (source : Source) (backup : Backup) (plan : List TablePlan) (part : Nat) (object : Object) : Object × Answer :=
  match object.kv.linkedPart part with
  | some recorded => (object, .link recorded)
  | none =>
    match importing object.kv source with
    | none => (object, refused .partMismatch)
    | some marker =>
      if marker.loaded ≠ backup.manifest.parts.length then (object, refused .partMismatch)
      else
        match readPart runtime backup plan part with
        | .error refusal => (object, .refused refusal)
        | .ok lines =>
          match linkRows plan lines with
          | none => (object, .failed)
          | some rows =>
            match execAll runtime object.db rows.flatten with
            | none => (object, .failed)
            | some db =>
              let ack : LinkAck := ⟨part, (rows.filter (· ≠ [])).length⟩
              ({ db
                 kv := { object.kv with
                   linkedPart := Function.update object.kv.linkedPart part (some ack)
                   marker := some { marker with verified := none } } },
                .link ack)

/-! ## verify -/

def startOf : List DumpTable → Option Cursor
  | [] => none
  | table :: _ => some (fresh digest table.name)

/-- The next rows of a table by rowid. -/
def readPage (db : Database) (table : String) (after : Option Rowid) : List Row :=
  ((db.rows table).filter fun row => after.all (·.1 < row.rowid.1)).take pageRows

def rowEncoding (row : Row) : Text := encodeOpsDumpRow (.integer row.rowid :: row.values)

inductive Verified
  | read (finished : List DumpTable) (next : Option Cursor)
  | mismatch (table : String)
  deriving DecidableEq

/-- The loop of `verify` from the tables that are left, with the cursor in the first of them. -/
def verifyTables (db : Database) : List DumpTable → Cursor → Nat → List DumpTable → Option Verified
  | [], _, _, finished => some (.read finished none)
  | expected :: rest, current, budget, finished =>
    if budget = 0 then some (.read finished (some current))
    else
      let page := readPage db expected.name current.after
      match foldOpsTableHash digest current.hash (page.map rowEncoding) with
      | none => none
      | some hash =>
        let rows := current.rows + page.length
        if expected.rows < rows then some (.mismatch expected.name)
        else if page.length < pageRows then
          if rows ≠ expected.rows ∨ hash ≠ expected.hash then some (.mismatch expected.name)
          else
            verifyTables db rest ((startOf digest rest).getD current) (budget - page.length) (finished ++ [expected])
        else
          verifyTables db (expected :: rest)
            ⟨expected.name, (page.getLast?.map (·.rowid)).or current.after, rows, hash⟩ (budget - page.length) finished
termination_by tables _ budget => (tables.length, budget)
decreasing_by
  · exact Prod.Lex.left _ _ (by simp)
  · refine Prod.Lex.right _ ?_
    have : pageRows = 1000 := rfl
    show budget - page.length < budget
    omega

/-- Reads back from the cursor, from the first table without one; a cursor of no table matches nothing. -/
def verifyFrom (db : Database) (tables : List DumpTable) : Option Cursor → Option Verified
  | none =>
    match startOf digest tables with
    | none => some (.read [] none)
    | some start => verifyTables digest db tables start partMaxRows []
  | some cursor =>
    match tables.dropWhile (·.name ≠ cursor.table) with
    | [] => some (.mismatch cursor.table)
    | table :: rest => verifyTables digest db (table :: rest) cursor partMaxRows []

def verify (source : Source) (manifest : Manifest) (cursor : Option Cursor) (object : Object) : Object × Answer :=
  match importing object.kv source with
  | none => (object, refused .noImport)
  | some marker =>
    let mismatch (table : Option String) : Object × Answer :=
      (object.withMarker { marker with verified := none }, .refused ⟨.verifyMismatch, table⟩)
    -- A step whose answer was lost is answered again; any other cursor must be the one handed out last.
    match (marker.verified.bind (·.replay)).filter fun replay => some replay.1 = cursor with
    | some replay => (object, .verify replay.2)
    | none =>
      if cursor ≠ none ∧ marker.verified.bind (·.next) ≠ cursor then mismatch (cursor.map (·.table))
      else
        match verifyFrom digest object.db manifest.tables cursor with
        | none => (object, .failed)
        | some (.mismatch table) => mismatch (some table)
        | some (.read finished next) =>
          let ack : VerifyAck := ⟨finished, next⟩
          (object.withMarker { marker with verified := some ⟨next, cursor.map fun cursor => (cursor, ack)⟩ }, .verify ack)

/-! ## complete and discard -/

/-- `\s` of a regular expression. -/
def isBlank (c : Char) : Bool :=
  (9 ≤ c.toNat && c.toNat ≤ 13) || (0x2000 ≤ c.toNat && c.toNat ≤ 0x200a)
    || [0x20, 0xa0, 0x1680, 0x2028, 0x2029, 0x202f, 0x205f, 0x3000, 0xfeff].contains c.toNat

/-- What follows the word and at least one blank; the word in any case. -/
def afterWord (word : String) (text : List Char) : Option (List Char) :=
  if (text.take word.length).map Char.toUpper = word.toList && (text.drop word.length).head?.any isBlank then
    some ((text.drop word.length).dropWhile isBlank)
  else none

/-- `TRIGGER_DDL`: the only DDL `complete` runs from the manifest. -/
def isTriggerDdl (sql : String) : Bool :=
  match afterWord "CREATE" sql.toList with
  | none => false
  | some rest =>
    let named := (afterWord "TEMP" rest).getD ((afterWord "TEMPORARY" rest).getD rest)
    (afterWord "TRIGGER" named).isSome

/-- Whether a part is not loaded, or waits for its link pass. -/
def waits (kv : Kv) (part : DumpPart) : Bool :=
  match kv.loadedPart part.part with
  | none => true
  | some ack => 0 < ack.deferred && (kv.linkedPart ack.part).isNone

/-- The marker and the receipts go, and the completion's receipt stays. -/
def cleared (kv : Kv) (manifest : Manifest) (source : Source) : Kv where
  marker := none
  loadedPart part := if (manifest.parts.map (·.part)).contains part then none else kv.loadedPart part
  linkedPart part := if (manifest.parts.map (·.part)).contains part then none else kv.linkedPart part
  completed := Function.update kv.completed source true

/-- A refusal behind the checks commits what ran before it: the triggers created so far stay. -/
def complete (source : Source) (manifest : Manifest) (object : Object) : Object × Answer :=
  match importing object.kv source with
  | none => (object, refused .noImport)
  | some marker =>
    if marker.loaded ≠ manifest.parts.length ∨ manifest.parts.any (waits object.kv) then (object, refused .partMismatch)
    else
      match marker.verified with
      | none => (object, refused .verifyMismatch)
      | some verified =>
        if verified.next ≠ none then (object, refused .verifyMismatch)
        else
          let present := ((readDdl object.db).filter fun entry => entry.type = .trigger).map (·.name)
          let missing := manifest.ddl.filter fun entry => entry.type = .trigger && !present.contains entry.name
          let valid := missing.takeWhile fun entry => isTriggerDdl entry.sql
          match execAll runtime object.db (valid.map fun entry => .createTrigger entry.sql) with
          | none => (object, .failed)
          | some db =>
            if valid.length < missing.length then ({ object with db }, refused .schemaMismatch)
            else if !sameDdl (readDdl db) manifest.ddl then ({ object with db }, refused .schemaMismatch)
            else ({ db, kv := cleared object.kv manifest source }, .complete source)

/-- `deleteAll`: the database and the KV storage are empty. -/
def wiped : Object where
  db := ⟨[], fun _ => [], fun _ => .nil, fun _ _ h => nomatch h⟩
  kv := ⟨none, fun _ => none, fun _ => none, fun _ => false⟩

def discard (object : Object) : Object × Answer :=
  if object.kv.marker.isNone then (object, refused .noImport) else (wiped, .discarded)

/-! ## Steps -/

inductive Request
  /-- The database the migrations leave, whole or interrupted. -/
  | begin_ (source : Source) (migrated : Except Database Database)
  | part (source : Source) (part : Nat)
  | link (source : Source) (part : Nat)
  | verify (source : Source) (cursor : Option Cursor)
  | complete (source : Source)
  | discard

variable (bucket : Bucket) (release : List Bundle)

/-- A step of an import that is under way. -/
def importStep (source : Source) (object : Object) (step : Backup → Object × Answer) : Object × Answer :=
  match importing object.kv source with
  | none => (object, refused .noImport)
  | some _ =>
    match bucket source with
    | none => (object, refused .invalidManifest)
    | some backup => step backup

def planned (backup : Backup) (object : Object) (step : List TablePlan → Object × Answer) : Object × Answer :=
  match currentPlan runtime object.db backup.manifest with
  | .error refusal => (object, .refused refusal)
  | .ok plan => step plan

def admittedStep (object : Object) : Request → Object × Answer
  | .discard => discard object
  | .begin_ source migrated => begin_ runtime digest bucket release source migrated object
  | .part source part =>
    importStep bucket source object fun backup => planned runtime backup object fun plan =>
      loadPart runtime source backup plan part object
  | .link source part =>
    importStep bucket source object fun backup => planned runtime backup object fun plan =>
      linkPart runtime source backup plan part object
  | .verify source cursor =>
    importStep bucket source object fun backup => planned runtime backup object fun _ =>
      verify digest source backup.manifest cursor object
  | .complete source =>
    match importing object.kv source with
    | none => if object.kv.completed source then (object, .complete source) else (object, refused .noImport)
    | some _ => importStep bucket source object fun backup => complete runtime source backup.manifest object

end Fabrika.App.Import
