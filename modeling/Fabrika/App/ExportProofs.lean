/-
  Fabrika.App.ExportProofs — a dump's parts partition the database (see `Fabrika.App.Export`).

  A `Position` is a place between two rows of the plan's stream of rows and table ends, and the
  cursor that names it. A part at a position keeps some number of the rows that follow, whatever
  its bounds and its compression make of it; `seek` is the position after them. `partOf_at` says
  that a part answers exactly these rows, the ends passed and the cursor of the next position,
  and the chain follows by induction on its parts.
-/

import Fabrika.App.Export
import Mathlib.Data.List.Nodup
import Mathlib.Data.List.Infix
import Mathlib.Data.List.OfFn

namespace Fabrika.App.Export

open Fabrika.AuthCore.OpsDump

variable {digest : Digest} {codec : Codec}

/-! ## Lines -/

theorem utf8_length_ascii {text : Text} (h : ∀ c ∈ text, c.val ≤ 127) : (utf8 text).length = text.length := by
  induction text with
  | nil => rfl
  | cons c rest ih =>
    have hc : (String.utf8EncodeChar c).length = 1 := by
      rw [String.length_utf8EncodeChar, Char.utf8Size_eq_one_iff]
      exact h c List.mem_cons_self
    rw [show utf8 (c :: rest) = String.utf8EncodeChar c ++ utf8 rest from rfl, List.length_append, hc,
      ih fun d hd => h d (List.mem_cons_of_mem _ hd), List.length_cons]
    omega

theorem tableName_ascii {name : String} (h : isTableName name = true) : ∀ c ∈ name.toList, c.val ≤ 127 := by
  have hrange : ∀ c : Char, (('a' ≤ c && c ≤ 'z') || ('0' ≤ c && c ≤ '9') || c == '_') = true → c.val ≤ 127 := by
    intro c hc
    simp only [Bool.or_eq_true, Bool.and_eq_true, decide_eq_true_eq, beq_iff_eq] at hc
    rcases hc with (⟨-, hz⟩ | ⟨-, hz⟩) | rfl
    · exact UInt32.le_trans (show c.val ≤ 'z'.val from hz) (by decide)
    · exact UInt32.le_trans (show c.val ≤ '9'.val from hz) (by decide)
    · decide
  unfold isTableName at h
  split at h
  · cases h
  · rename_i first rest hname
    rw [hname]
    simp only [Bool.and_eq_true, List.all_eq_true] at h
    intro c hc
    rcases List.mem_cons.mp hc with rfl | hc
    · apply hrange
      have hfirst := h.1.1
      rw [Bool.or_eq_true] at hfirst ⊢
      rcases hfirst with hletter | hunderscore
      · exact .inl (Bool.or_eq_true _ _ ▸ .inl hletter)
      · exact .inr hunderscore
    · exact hrange c (h.1.2 c hc)

theorem ascii_of_all {text : Text} (h : (text.all fun c => Nat.ble c.toNat 127) = true) : ∀ c ∈ text, c.val ≤ 127 := by
  intro c hc
  have hle : Nat.ble c.toNat 127 = true := List.all_eq_true.mp h c hc
  exact UInt32.le_iff_toNat_le.mpr (Nat.le_of_ble_eq_true hle)

theorem lineStart_ascii {table : String} (h : isTableName table = true) : ∀ c ∈ lineStart table, c.val ≤ 127 := by
  have hfront : ∀ c ∈ "\x7b\"table\":\"".toList, c.val ≤ 127 := ascii_of_all (by decide)
  have hback : ∀ c ∈ "\",\"row\":".toList, c.val ≤ 127 := ascii_of_all (by decide)
  intro c hc
  unfold lineStart at hc
  rcases List.mem_append.mp hc with hc | hc
  · rcases List.mem_append.mp hc with hc | hc
    · exact hfront c hc
    · exact tableName_ascii h c hc
  · exact hback c hc

/-- The text of a row the hashes fold. -/
def Row.text (row : Row) : Text := encodeOpsDumpRow (.integer row.rowid :: row.values)

theorem rowText_line {table : String} (h : isTableName table = true) (row : Row) :
    rowText (row.line table) (rowStartOf table) = row.text := by
  have hline : row.line table = utf8 (lineStart table) ++ utf8 row.text ++ utf8 "\x7d\n".toList := by
    rw [← utf8_append, ← utf8_append]
    unfold Row.line encodeOpsDumpLine Row.text
    congr 1
    simp
  have hend : (utf8 "\x7d\n".toList).length = 2 := by decide
  have hstart : rowStartOf table = (utf8 (lineStart table)).length := by
    rw [utf8_length_ascii (lineStart_ascii h)]
    unfold rowStartOf encodeOpsDumpLine encodeOpsDumpRow
    simp
  unfold rowText
  rw [hline, hstart, List.length_append, hend, Nat.add_sub_cancel, List.take_left, List.drop_left, decodeUtf8_utf8]

/-! ## The stream of rows and ends -/

def rowItem (table : String) (row : Row) : Item := .row table row.rowid (row.line table) (rowStartOf table)

def stream (tables : List Table) : List Item :=
  tables.flatMap fun table => table.rows.map (rowItem table.name) ++ [.end' table.name]

/-- The lines of the rows among items. -/
def linesOf (items : List Item) : List Bytes := items.filterMap Item.line?

@[simp] theorem linesOf_append (a b : List Item) : linesOf (a ++ b) = linesOf a ++ linesOf b := List.filterMap_append

@[simp] theorem linesOf_nil : linesOf [] = [] := rfl

@[simp] theorem linesOf_end (table : String) (items : List Item) : linesOf (.end' table :: items) = linesOf items := rfl

@[simp] theorem linesOf_row (table : String) (rowid : Rowid) (line : Bytes) (rowStart : Nat) (items : List Item) :
    linesOf (.row table rowid line rowStart :: items) = line :: linesOf items := rfl

@[simp] theorem linesOf_rows (table : String) (rows : List Row) :
    linesOf (rows.map (rowItem table)) = rows.map (Row.line · table) := by
  induction rows with
  | nil => rfl
  | cons row rest ih => simpa [rowItem] using ih

/-- Every row of every table, once: the tables in plan order and their rows in rowid order. -/
def Contents.lines (contents : Contents) : List Bytes :=
  contents.tables.flatMap fun table => table.rows.map (Row.line · table.name)

theorem linesOf_stream (tables : List Table) : linesOf (stream tables) = tables.flatMap fun table =>
    table.rows.map (Row.line · table.name) := by
  induction tables with
  | nil => rfl
  | cons table rest ih =>
    rw [stream, List.flatMap_cons, List.flatMap_cons, ← ih, linesOf_append, linesOf_append, linesOf_rows]
    simp [stream]

/-- A place in the stream: some rows of a table are read, the rest of it and the later tables
    follow. -/
structure Position where
  table : Table
  read : List Row
  rest : List Row
  later : List Table
  split : table.rows = read ++ rest

def Position.stream (p : Position) : List Item := p.rest.map (rowItem p.table.name) ++ .end' p.table.name :: Export.stream p.later

def lastRowid (read : List Row) : Option Rowid := read.getLast?.map (·.rowid)

def hashOf (digest : Digest) (rows : List Row) : String := (rows.map Row.text).foldl (foldRow digest) (emptyTableHash digest)

def Position.cursor (digest : Digest) (p : Position) : Cursor :=
  ⟨p.table.name, lastRowid p.read, p.read.length, hashOf digest p.read⟩

/-- What a finished table is reported as: its row count, and the fold over all its rows. -/
def report (digest : Digest) (table : Table) : DumpTable := ⟨table.name, table.rows.length, hashOf digest table.rows⟩

theorem page_at (p : Position) (limit : Nat) : p.table.page (lastRowid p.read) limit = p.rest.take limit := by
  have hordered := p.table.ordered
  unfold Table.page
  rw [p.split] at hordered ⊢
  congr 1
  rw [List.filter_append]
  have hread : p.read.filter (fun row => (lastRowid p.read).all (·.1 < row.rowid.1)) = [] := by
    rw [List.filter_eq_nil_iff]
    intro row hrow
    -- The last row read is not before any row read.
    obtain ⟨last, hlast⟩ : ∃ last, p.read.getLast? = some last :=
      ⟨p.read.getLast (List.ne_nil_of_mem hrow), List.getLast?_eq_getLast_of_ne_nil _⟩
    obtain ⟨front, hfront⟩ := List.getLast?_eq_some_iff.mp hlast
    have hle : row.rowid.1 ≤ last.rowid.1 := by
      rw [hfront] at hrow hordered
      rcases List.mem_append.mp hrow with hrow | hrow
      · have hpair := (List.pairwise_append.mp (List.pairwise_append.mp hordered).1).2.2
        exact le_of_lt (hpair row hrow last (List.mem_singleton_self _))
      · exact le_of_eq (by rw [List.mem_singleton.mp hrow])
    simp only [lastRowid, hlast, Option.map_some, Option.all_some, decide_eq_true_eq, not_lt]
    exact hle
  have hrest : p.rest.filter (fun row => (lastRowid p.read).all (·.1 < row.rowid.1)) = p.rest := by
    rw [List.filter_eq_self]
    intro row hrow
    unfold lastRowid
    cases hlast : p.read.getLast? with
    | none => rfl
    | some last =>
      have hmem : last ∈ p.read := List.mem_of_getLast? hlast
      simpa using (List.pairwise_append.mp hordered).2.2 last hmem row hrow
  rw [hread, hrest, List.nil_append]

/-! ## Reading follows the stream -/

def rawOf (items : List Item) : Nat := ((linesOf items).map List.length).sum

/-- A line that breaks the part's bounds. -/
def Breaks (rows raw : Nat) (line : Bytes) : Prop := partMaxRows < rows + 1 ∨ partMaxRawBytes < raw + line.length

/-- The rows of a page that are taken: all, or those before the one that breaks the part. -/
theorem takeRows_spec (table : String) (page : List Row) (taken : Taken) (hrows : taken.rows ≤ partMaxRows) :
    ∃ done rest, page = done ++ rest ∧
      (takeRows table (rowStartOf table) page taken).1.items = taken.items ++ done.map (rowItem table) ∧
      (takeRows table (rowStartOf table) page taken).1.rows = taken.rows + done.length ∧
      (takeRows table (rowStartOf table) page taken).1.raw = taken.raw + rawOf (done.map (rowItem table)) ∧
      (takeRows table (rowStartOf table) page taken).1.after = (lastRowid done <|> taken.after) ∧
      taken.rows + done.length ≤ partMaxRows ∧
      ((takeRows table (rowStartOf table) page taken).2 = false ∧ rest = [] ∨
        (takeRows table (rowStartOf table) page taken).2 = true ∧ ∃ row rest', rest = row :: rest' ∧
          Breaks (taken.rows + done.length) (taken.raw + rawOf (done.map (rowItem table))) (row.line table)) := by
  induction page generalizing taken with
  | nil => exact ⟨[], [], rfl, by simp [takeRows], rfl, rfl, rfl, hrows, .inl ⟨rfl, rfl⟩⟩
  | cons row rest ih =>
    unfold takeRows
    dsimp only
    by_cases hbreaks : partMaxRows < taken.rows + 1 ∨ partMaxRawBytes < taken.raw + (row.line table).length
    · rw [if_pos hbreaks]
      exact ⟨[], row :: rest, rfl, by simp, rfl, rfl, rfl, hrows, .inr ⟨rfl, row, rest, rfl, hbreaks⟩⟩
    · rw [if_neg hbreaks]
      have hfits : taken.rows + 1 ≤ partMaxRows := by
        rw [not_or] at hbreaks
        omega
      obtain ⟨done, rest', hpage, hitems, hrows', hraw, hafter, hmax, hstop⟩ := ih
        ⟨taken.items ++ [.row table row.rowid (row.line table) (rowStartOf table)], taken.rows + 1,
          taken.raw + (row.line table).length, some row.rowid⟩ hfits
      dsimp only at hrows' hraw hmax hstop
      have hraw' : rawOf ((row :: done).map (rowItem table)) = (row.line table).length + rawOf (done.map (rowItem table)) := by
        simp [rawOf, rowItem]
      refine ⟨row :: done, rest', by rw [hpage, List.cons_append], ?_, ?_, ?_, ?_, ?_, ?_⟩
      · rw [hitems]
        simp [rowItem]
      · rw [hrows', List.length_cons]
        omega
      · rw [hraw, hraw']
        omega
      · rw [hafter]
        unfold lastRowid
        cases done with
        | nil => rfl
        | cons d ds =>
          obtain ⟨last, hlast⟩ : ∃ last, (d :: ds).getLast? = some last :=
            ⟨_, List.getLast?_eq_getLast_of_ne_nil (List.cons_ne_nil d ds)⟩
          rw [List.getLast?_cons_cons, hlast]
          rfl
      · rw [List.length_cons]
        omega
      · rcases hstop with hstop | ⟨hflag, row', rest'', heq, hbreak⟩
        · exact .inl hstop
        · refine .inr ⟨hflag, row', rest'', heq, ?_⟩
          rw [hraw', List.length_cons]
          rwa [show taken.rows + (done.length + 1) = taken.rows + 1 + done.length by omega, ← Nat.add_assoc]

theorem lastRowid_append (a b : List Row) : lastRowid (a ++ b) = (lastRowid b <|> lastRowid a) := by
  unfold lastRowid
  rw [List.getLast?_append]
  cases b.getLast? with
  | none => rfl
  | some row => rfl

/-- The pages of a table read it to its end, or to the row that breaks the part. -/
theorem readPages_spec (p : Position) (fuel : Nat) (taken : Taken) (hfuel : p.rest.length < fuel)
    (hrows : taken.rows ≤ partMaxRows)
    (hafter : taken.after = lastRowid p.read) :
    ∃ taken' broke done rest, readPages p.table (rowStartOf p.table.name) fuel taken = some (taken', broke) ∧
    p.rest = done ++ rest ∧
      taken'.rows = taken.rows + done.length ∧ taken'.raw = taken.raw + rawOf (done.map (rowItem p.table.name)) ∧
      taken.rows + done.length ≤ partMaxRows ∧
      (broke = false ∧ rest = [] ∧ taken'.items = taken.items ++ done.map (rowItem p.table.name) ++ [.end' p.table.name] ∨
        broke = true ∧ taken'.items = taken.items ++ done.map (rowItem p.table.name) ∧ ∃ row rest', rest = row :: rest' ∧
          Breaks taken'.rows taken'.raw (row.line p.table.name)) := by
  induction fuel generalizing p taken with
  | zero => exact absurd hfuel (Nat.not_lt_zero _)
  | succ fuel ih =>
    unfold readPages
    dsimp only
    rw [hafter, page_at, List.length_map, List.length_take]
    -- The page is some rows of the rest, none of them only where the rest is empty.
    obtain ⟨count, hpage, hcount, hprogress⟩ : ∃ count,
        (if min pageRows p.rest.length = 0 then [] else p.table.page (lastRowid p.read)
          (min (countFitting taken.rows (partMaxRawBytes - taken.raw) ((p.rest.take pageRows).map (rowBound p.table.name)) + 1)
            (min pageRows p.rest.length))) = p.rest.take count ∧ count ≤ min pageRows p.rest.length ∧
            (p.rest ≠ [] → 0 < count) := by
      by_cases hempty : min pageRows p.rest.length = 0
      · rw [if_pos hempty]
        refine ⟨0, rfl, Nat.zero_le _, ?_⟩
        intro hne
        have : 0 < p.rest.length := List.length_pos_of_ne_nil hne
        simp only [pageRows] at hempty
        omega
      · rw [if_neg hempty, page_at]
        exact ⟨_, rfl, Nat.min_le_right _ _, fun _ => by omega⟩
    rw [hpage]
    have hlength : (p.rest.take count).length = count := by
      rw [List.length_take]
      omega
    obtain ⟨done, left, hsplit, hitems, hrows', hraw, hafter', hmax, hstop⟩ :=
      takeRows_spec p.table.name (p.rest.take count) taken hrows
    rcases hstop with ⟨hflag, rfl⟩ | ⟨hflag, row, rest', rfl, hbreak⟩
    · rw [List.append_nil] at hsplit
      rw [hflag, if_neg (by simp)]
      by_cases hend : (p.rest.take count).length = min pageRows p.rest.length ∧ min pageRows p.rest.length < pageRows
      · rw [if_pos hend]
        have hall : p.rest.take count = p.rest := by
          apply List.take_of_length_le
          rw [hlength] at hend
          omega
        have hdone : done = p.rest := by rw [← hsplit, hall]
        rw [hdone] at hitems hrows' hraw hmax
        refine ⟨_, false, p.rest, [], rfl, by simp, hrows', hraw, hmax, .inl ⟨rfl, rfl, ?_⟩⟩
        rw [hitems]
      · rw [if_neg hend]
        have hne : p.rest ≠ [] := by
          rintro hnil
          apply hend
          rw [hlength, hnil]
          rw [hnil] at hcount
          simp only [List.length_nil, pageRows] at hcount ⊢
          omega
        have hpos := hprogress hne
        let q : Position := ⟨p.table, p.read ++ p.rest.take count, p.rest.drop count, p.later,
          by rw [p.split, List.append_assoc, List.take_append_drop]⟩
        have hshorter : q.rest.length < fuel := by
          show (p.rest.drop count).length < fuel
          rw [List.length_drop]
          have : 0 < p.rest.length := List.length_pos_of_ne_nil hne
          omega
        obtain ⟨taken', broke, done', rest', hread, hdone, hrows'', hraw', hmax', hstop'⟩ :=
          ih q _ hshorter (by rw [hrows']; exact hmax)
          (by rw [hafter', hafter, ← hsplit]; exact (lastRowid_append _ _).symm)
        have hitems' : taken.items ++ List.map (rowItem p.table.name) (p.rest.take count) ++
            List.map (rowItem p.table.name) done' =
            taken.items ++ List.map (rowItem p.table.name) (p.rest.take count ++ done') := by
          rw [List.map_append, List.append_assoc]
        have hraws : rawOf (List.map (rowItem p.table.name) (p.rest.take count ++ done')) =
            rawOf (List.map (rowItem p.table.name) (p.rest.take count)) + rawOf (List.map (rowItem p.table.name) done') := by
          simp [rawOf]
        rw [← hsplit] at hitems hrows' hraw
        refine ⟨taken', broke, p.rest.take count ++ done', rest', hread, ?_, ?_, ?_, ?_, ?_⟩
        · rw [List.append_assoc, ← show p.rest.drop count = done' ++ rest' from hdone, List.take_append_drop]
        · rw [hrows'', hrows', List.length_append]
          omega
        · rw [hraw', hraw, hraws]
          exact Nat.add_assoc _ _ _
        · rw [hrows'] at hmax'
          rw [List.length_append]
          omega
        · rw [hitems, hitems'] at hstop'
          exact hstop'
    · rw [hflag, if_pos rfl]
      refine ⟨_, true, done, row :: (rest' ++ p.rest.drop count), congrArg some (Prod.ext rfl hflag), ?_, hrows', hraw, hmax,
        .inr ⟨rfl, hitems, row, _, rfl, ?_⟩⟩
      · conv_lhs => rw [← List.take_append_drop count p.rest, hsplit]
        simp
      · rw [hrows', hraw]
        exact hbreak

/-- What is collected of `items`: all of them, or those before a row that breaks the part; the
    first row alone is refused. -/
inductive Collects (items : List Item) (taken : Taken) : Except Refusal Collected → Prop
  | all (bounded : taken.rows + (linesOf items).length ≤ partMaxRows) : Collects items taken (.ok ⟨taken.items ++ items, none⟩)
  | broke {kept rest : List Item} {table : String} {rowid : Rowid} {line : Bytes} {rowStart : Nat}
      (split : items = kept ++ .row table rowid line rowStart :: rest) (some' : taken.rows + (linesOf kept).length ≠ 0)
      (bounded : taken.rows + (linesOf kept).length ≤ partMaxRows) : Collects items taken (.ok ⟨taken.items ++ kept, some table⟩)
  | refused {kept rest : List Item} {table : String} {rowid : Rowid} {line : Bytes} {rowStart : Nat}
      (split : items = kept ++ .row table rowid line rowStart :: rest) (breaks : Breaks 0 (taken.raw + rawOf kept) line)
      (first : taken.rows + (linesOf kept).length = 0) : Collects items taken (.error (.rowTooLarge (some table)))

theorem Collects.after {items items' : List Item} {taken taken' : Taken} {result : Except Refusal Collected}
    (hitems : taken'.items = taken.items ++ items) (hrows : taken'.rows = taken.rows + (linesOf items).length)
    (hraw : taken'.raw = taken.raw + rawOf items) (h : Collects items' taken' result) :
    Collects (items ++ items') taken result := by
  cases h with
  | all bounded =>
    rw [hitems, List.append_assoc]
    refine .all ?_
    rw [linesOf_append, List.length_append]
    omega
  | broke split some' bounded =>
    rw [hitems, List.append_assoc]
    refine .broke (by rw [split, List.append_assoc]) ?_ ?_
    · rw [linesOf_append, List.length_append]
      omega
    · rw [linesOf_append, List.length_append]
      omega
  | @refused kept rest table rowid line rowStart split breaks first =>
    refine .refused (by rw [split, List.append_assoc]) ?_ ?_
    · have hsum : rawOf (items ++ kept) = rawOf items + rawOf kept := by simp [rawOf]
      rw [hsum, ← Nat.add_assoc, ← hraw]
      exact breaks
    · rw [linesOf_append, List.length_append]
      omega

/-- One table, from where it stands: read to its end, or cut by a row that breaks the part. -/
theorem readPages_collects (p : Position) (taken : Taken) (hrows : taken.rows ≤ partMaxRows)
    (hafter : taken.after = lastRowid p.read) :
    ∃ read broke, readPages p.table (rowStartOf p.table.name) (p.table.rows.length + 1) taken = some (read, broke) ∧
      (broke = true → Collects p.stream taken
        (if read.rows = 0 then .error (.rowTooLarge (some p.table.name)) else .ok ⟨read.items, some p.table.name⟩)) ∧
      (broke = false → read.items = taken.items ++ (p.rest.map (rowItem p.table.name) ++ [.end' p.table.name]) ∧
        read.rows = taken.rows + p.rest.length ∧ read.raw = taken.raw + rawOf (p.rest.map (rowItem p.table.name)) ∧
        read.rows ≤ partMaxRows) := by
  obtain ⟨read, broke, done, left, hread, hdone, hrows', hraw, hmax, hstop⟩ :=
    readPages_spec p (p.table.rows.length + 1) taken (by rw [p.split, List.length_append]; omega) hrows hafter
  refine ⟨read, broke, hread, ?_, ?_⟩
  · rintro rfl
    rcases hstop with ⟨hflag, -⟩ | ⟨-, hitems, row, rest', rfl, hbreaks⟩
    · cases hflag
    · have hstream : p.stream = done.map (rowItem p.table.name) ++
          .row p.table.name row.rowid (row.line p.table.name) (rowStartOf p.table.name) ::
          (rest'.map (rowItem p.table.name) ++ .end' p.table.name :: stream p.later) := by
        rw [Position.stream, hdone]
        simp [rowItem]
      have hlen : (linesOf (done.map (rowItem p.table.name))).length = done.length := by simp
      by_cases hzero : read.rows = 0
      · rw [if_pos hzero]
        refine .refused hstream ?_ ?_
        · rw [hzero, hraw] at hbreaks
          exact hbreaks
        · rw [hlen, ← hrows', hzero]
      · rw [if_neg hzero, hitems]
        refine .broke hstream ?_ ?_
        · rw [hlen, ← hrows']
          exact hzero
        · rw [hlen]
          exact hmax
  · rintro rfl
    rcases hstop with ⟨-, rfl, hitems⟩ | ⟨hflag, -⟩
    · rw [List.append_nil] at hdone
      subst hdone
      refine ⟨by rw [hitems, List.append_assoc], hrows', hraw, ?_⟩
      rw [hrows']
      exact hmax
    · cases hflag

/-- The first table from where it stands, and every later table from its start. -/
theorem collectTables_spec (start : Cursor) (p : Position) (taken : Taken) (hrows : taken.rows ≤ partMaxRows)
    (hafter : (if p.table.name = start.table then start.after else none) = lastRowid p.read)
    (hlater : ∀ table ∈ p.later, table.name ≠ start.table) :
    ∃ result, collectTables start (p.table :: p.later) taken = some result ∧ Collects p.stream taken result := by
  obtain ⟨table, read, rest, later, split⟩ := p
  induction later generalizing table read rest taken with
  | nil =>
    obtain ⟨read', broke, hread, hbroke, hended⟩ := readPages_collects ⟨table, read, rest, [], split⟩
      { taken with after := if table.name = start.table then start.after else none } hrows hafter
    dsimp only at hread hbroke hended
    unfold collectTables
    dsimp only
    rw [hread]
    cases broke with
    | true => exact ⟨_, rfl, @Collects.after [] _ taken _ _ (by simp) (by simp) (by simp [rawOf]) (hbroke rfl)⟩
    | false =>
      obtain ⟨hitems, hrows', hraw, hmax⟩ := hended rfl
      refine ⟨_, rfl, ?_⟩
      rw [hitems]
      refine .all ?_
      rw [hrows'] at hmax
      simpa [Position.stream, stream] using hmax
  | cons next later ih =>
    obtain ⟨read', broke, hread, hbroke, hended⟩ := readPages_collects ⟨table, read, rest, next :: later, split⟩
      { taken with after := if table.name = start.table then start.after else none } hrows hafter
    dsimp only at hread hbroke hended
    unfold collectTables
    dsimp only
    rw [hread]
    cases broke with
    | true => exact ⟨_, rfl, @Collects.after [] _ taken _ _ (by simp) (by simp) (by simp [rawOf]) (hbroke rfl)⟩
    | false =>
      obtain ⟨hitems, hrows', hraw, hmax⟩ := hended rfl
      obtain ⟨result, hresult, hcollects⟩ := ih read' hmax next [] next.rows rfl
        (by rw [if_neg (hlater next List.mem_cons_self)]; rfl) (fun t ht => hlater t (List.mem_cons_of_mem _ ht))
      refine ⟨result, hresult, ?_⟩
      have hstream : Position.stream ⟨table, read, rest, next :: later, split⟩ =
          (rest.map (rowItem table.name) ++ [.end' table.name]) ++ Position.stream ⟨next, [], next.rows, later, rfl⟩ := by
        simp [Position.stream, stream]
      rw [hstream]
      refine hcollects.after hitems ?_ ?_
      · rw [hrows']
        simp
      · rw [hraw]
        simp [rawOf]

/-! ## Compression -/

def deflatedSize (codec : Codec) (lines : List Bytes) (rows : Nat) : Nat :=
  (codec.deflateRawSync (lines.take rows).flatten).length

/-- What the search holds: the prefix that fits is compressed as it is kept, and the one that
    breaks does not fit. -/
structure Searching (codec : Codec) (lines : List Bytes) (fits : Option Filled) (breaksRows : Nat) : Prop where
  kept : ∀ f, fits = some f → f = compressed codec lines f.rows false ∧ f.deflate.length ≤ target ∧ 0 < f.rows ∧
    f.rows < breaksRows
  within : breaksRows ≤ lines.length
  breaks : target < deflatedSize codec lines breaksRows

theorem search_spec {lines : List Bytes} (fuel : Nat) {fits : Option Filled} {breaksRows : Nat} (breaksSize : Nat) (halve : Bool)
    (hinv : Searching codec lines fits breaksRows) (hfuel : breaksRows - (fits.map (·.rows)).getD 0 ≤ fuel) :
    (∃ f, search codec lines fuel fits breaksRows breaksSize halve = some f ∧ f = compressed codec lines f.rows false ∧
      f.deflate.length ≤ target ∧ 0 < f.rows ∧ f.rows < lines.length) ∨
    search codec lines fuel fits breaksRows breaksSize halve = none ∧ ∃ rows ≤ 1, target < deflatedSize codec lines rows := by
  -- The loop ends with the prefix it holds, or with none where one row already breaks.
  have hdone : ∀ {fits : Option Filled} {breaksRows : Nat}, Searching codec lines fits breaksRows →
      breaksRows - (fits.map (·.rows)).getD 0 ≤ 1 →
      (∃ f, fits = some f ∧ f = compressed codec lines f.rows false ∧ f.deflate.length ≤ target ∧ 0 < f.rows ∧
        f.rows < lines.length) ∨
        fits = none ∧ ∃ rows ≤ 1, target < deflatedSize codec lines rows := by
    intro fits breaksRows hinv hwidth
    cases hfits : fits with
    | none =>
      rw [hfits] at hwidth
      exact .inr ⟨rfl, breaksRows, by simpa using hwidth, hinv.breaks⟩
    | some f =>
      obtain ⟨heq, hsize, hpos, hlt⟩ := hinv.kept f hfits
      exact .inl ⟨f, rfl, heq, hsize, hpos, lt_of_lt_of_le hlt hinv.within⟩
  induction fuel generalizing fits breaksRows breaksSize halve with
  | zero => exact hdone hinv (le_trans hfuel (Nat.zero_le 1))
  | succ fuel ih =>
    unfold search
    dsimp only
    by_cases hwidth : breaksRows - (fits.map (·.rows)).getD 0 ≤ 1
    · rw [if_pos hwidth]
      exact hdone hinv hwidth
    · rw [if_neg hwidth]
      generalize hrows : (fits.map (·.rows)).getD 0 = fitsRows at hwidth hfuel ⊢
      generalize hguess : (if halve = true then fitsRows + (breaksRows - fitsRows) / 2 else
        min (breaksRows - 1) (max (fitsRows + 1) (fitsRows + (breaksRows - fitsRows) *
          (target - (fits.map (·.deflate.length)).getD 0) / max 1 (breaksSize - (fits.map (·.deflate.length)).getD 0)))) = guess
      have hbounds : fitsRows < guess ∧ guess < breaksRows := by
        rw [← hguess]
        split
        · omega
        · omega
      by_cases hfits : (compressed codec lines guess false).deflate.length ≤ target
      · rw [if_pos hfits]
        refine ih _ _ ⟨?_, hinv.within, hinv.breaks⟩ ?_
        · rintro f ⟨⟩
          exact ⟨rfl, hfits, Nat.zero_lt_of_lt hbounds.1, hbounds.2⟩
        · show breaksRows - guess ≤ fuel
          omega
      · rw [if_neg hfits]
        refine ih _ _ ⟨?_, le_trans (le_of_lt hbounds.2) hinv.within, not_le.mp hfits⟩ ?_
        · intro f hf
          obtain ⟨heq, hsize, hpos, -⟩ := hinv.kept f hf
          refine ⟨heq, hsize, hpos, ?_⟩
          rw [hf] at hrows
          exact lt_of_eq_of_lt hrows hbounds.1
        · rw [hrows]
          omega

/-- The rows a part keeps of what is collected: all of them, or a shorter prefix that is not the
    last. -/
theorem fill_spec (collected : Collected) :
    (∃ filled, fill codec collected = .ok filled ∧ memberSize filled ≤ partSize ∧
      filled = compressed codec (linesOf collected.items) filled.rows filled.last ∧
      (filled.rows = (linesOf collected.items).length ∧ filled.last = collected.breaker.isNone ∨
        0 < filled.rows ∧ filled.rows < (linesOf collected.items).length ∧ filled.last = false)) ∨
    (∃ table, fill codec collected = .error (.rowTooLarge table)) ∧
      ∃ rows ≤ 1, target < deflatedSize codec (linesOf collected.items) rows := by
  unfold fill
  dsimp only
  rw [show collected.items.filterMap Item.line? = linesOf collected.items from rfl]
  generalize linesOf collected.items = lines
  by_cases hall : memberSize (compressed codec lines lines.length collected.breaker.isNone) ≤ partSize
  · rw [if_pos hall]
    exact .inl ⟨_, rfl, hall, rfl, .inl ⟨rfl, rfl⟩⟩
  · rw [if_neg hall]
    have hbreaks : target < deflatedSize codec lines lines.length := by
      have hsize : (compressed codec lines lines.length collected.breaker.isNone).deflate.length =
          deflatedSize codec lines lines.length := rfl
      simp only [memberSize, not_le] at hall
      rw [hsize] at hall
      simp only [target, paddedOverhead, partSize] at hall ⊢
      split at hall
      · omega
      · omega
    have hinv : Searching codec lines none lines.length := ⟨(fun _ h => nomatch h), le_rfl, hbreaks⟩
    rcases search_spec lines.length (compressed codec lines lines.length collected.breaker.isNone).deflate.length false
      hinv (by simp)
      with ⟨f, hsearch, heq, hsize, hpos, hlt⟩ | ⟨hsearch, hrows⟩
    · have hlast : f.last = false := by rw [heq]; rfl
      rw [hsearch]
      refine .inl ⟨f, rfl, ?_, by rw [hlast]; exact heq, .inr ⟨hpos, hlt, hlast⟩⟩
      simp only [memberSize, hlast, target, paddedOverhead, partSize] at hsize ⊢
      simp only [Bool.false_eq_true, if_false]
      omega
    · rw [hsearch]
      exact .inr ⟨⟨_, rfl⟩, hrows⟩

/-- What a reader of the member answers: it checks the trailer, as RFC 1952 has it. -/
def gunzip (codec : Codec) (member : Bytes) : Option Bytes :=
  let body := if member.getD 3 0 = 0x10 then ((member.drop 10).dropWhile (· ≠ 0)).drop 1 else member.drop 10
  match codec.inflate (body.take (body.length - 8)) with
  | none => none
  | some raw =>
    if member.take 3 = [0x1F, 0x8B, 0x08] ∧ body.drop (body.length - 8) = codec.crc32 raw ++
      uint32LE raw.length then some raw else none

variable {count k n : Nat} {read rest : List Row} {table : Table} {p : Position} {answer : Answer} {upload : Upload}

variable {split : table.rows = read ++ rest}

theorem gunzip_gzipMember {filled : Filled} (h : filled.deflate = codec.deflateRawSync filled.raw) :
    gunzip codec (gzipMember codec filled) = some filled.raw := by
  have htrailer : (codec.crc32 filled.raw ++ uint32LE filled.raw.length).length = 8 := by
    rw [List.length_append, codec.crc_length]
    rfl
  have hbody : (if (gzipMember codec filled).getD 3 0 = 0x10 then (((gzipMember codec filled).drop 10).dropWhile (· ≠ 0)).drop 1
      else (gzipMember codec filled).drop 10) = filled.deflate ++ (codec.crc32 filled.raw ++ uint32LE filled.raw.length) := by
    unfold gzipMember
    cases hlast : filled.last with
    | true => simp
    | false => simp
  have hmagic : (gzipMember codec filled).take 3 = [0x1F, 0x8B, 0x08] := by
    unfold gzipMember
    simp
  unfold gunzip
  dsimp only
  rw [hbody, List.length_append, htrailer, Nat.add_sub_cancel, List.take_left, List.drop_left, h, codec.inflates]
  dsimp only
  rw [if_pos ⟨hmagic, rfl⟩]

theorem memberSize_pos {part : Filled} (h : part.last = true) : 0 < memberSize part := by
  unfold memberSize
  rw [if_pos h]
  omega

theorem gzipMember_length {filled : Filled} (h : memberSize filled ≤ partSize) :
    (gzipMember codec filled).length = if filled.last then memberSize filled else partSize := by
  unfold gzipMember
  cases hlast : filled.last with
  | true =>
    simp [memberSize, hlast, codec.crc_length, uint32LE]
    omega
  | false =>
    simp only [memberSize, hlast, paddedOverhead] at h ⊢
    simp [codec.crc_length, uint32LE] at h ⊢
    omega

/-! ## Settling follows the stream -/

/-- The tables passed and the position after `count` more rows; none where the stream ends first. -/
def seek : (later : List Table) → (table : Table) → (read rest : List Row) → table.rows = read ++ rest → Nat → List Table ×
    Option Position
  | later, table, read, rest, split, count =>
    if count < rest.length then
      ([], some ⟨table, read ++ rest.take count, rest.drop count, later, by rw [split, List.append_assoc, List.take_append_drop]⟩)
    else
      match later with
      | [] => ([table], none)
      | next :: later =>
        let more := seek later next [] next.rows rfl (count - rest.length)
        (table :: more.1, more.2)

theorem seek_cut {later : List Table} (h : count < rest.length) :
    seek later table read rest split count =
      ([], some ⟨table, read ++ rest.take count, rest.drop count, later,
        by rw [split, List.append_assoc, List.take_append_drop]⟩) := by
  rw [seek.eq_def]
  exact if_pos h

theorem seek_last (h : ¬ count < rest.length) : seek [] table read rest split count = ([table], none) := by
  rw [seek, if_neg h]

theorem seek_next {later : List Table} {next : Table} (h : ¬ count < rest.length) :
    seek (next :: later) table read rest split count =
      (table :: (seek later next [] next.rows rfl (count - rest.length)).1,
        (seek later next [] next.rows rfl (count - rest.length)).2) := by
  rw [seek, if_neg h]

def Position.seek (p : Position) (count : Nat) : List Table × Option Position :=
  Export.seek p.later p.table p.read p.rest p.split count

def cursorIn (digest : Digest) (table : String) (read : List Row) : Cursor :=
  ⟨table, lastRowid read, read.length, hashOf digest read⟩

theorem isSha_hashOf (rows : List Row) : isSha256Hex (hashOf digest rows) = true :=
  sha_of_foldl digest _ _ (digest.hex_digits _)

theorem hashOf_snoc (read : List Row) (row : Row) : foldOpsTableHash digest (hashOf digest read) [row.text] =
    some (hashOf digest (read ++ [row])) := by
  unfold foldOpsTableHash
  rw [if_pos (isSha_hashOf read)]
  simp [hashOf, List.foldl_append]

/-- The rows of one table: the cut falls among them, or they are all folded. -/
theorem settle_rows (breaker : Option String) {table : String} (htable : isTableName table = true) (rows : List Row)
    (more : List Item) {cursor : Cursor} {kept : Nat} (finished : List DumpTable)
    (hcursor : cursorAt digest cursor table = cursorIn digest table read) (hkept : kept ≤ count) :
    (count < kept + rows.length → settle digest breaker count (rows.map (rowItem table) ++ more) cursor kept finished =
      some ⟨finished, some (cursorIn digest table (read ++ rows.take (count - kept)))⟩) ∧
    (kept + rows.length ≤ count → ∃ cursor', (cursor' = cursor ∨ cursor'.table = table) ∧
      cursorAt digest cursor' table = cursorIn digest table (read ++ rows) ∧
      settle digest breaker count (rows.map (rowItem table) ++ more) cursor kept finished =
        settle digest breaker count more cursor' (kept + rows.length) finished) := by
  induction rows generalizing cursor kept read with
  | nil =>
    refine ⟨?_, ?_⟩
    · intro h
      simp only [List.length_nil] at h
      omega
    · intro _
      exact ⟨cursor, .inl rfl, by rw [List.append_nil, hcursor], rfl⟩
  | cons row rest ih =>
    have hstep : ∀ hne : kept ≠ count, settle digest breaker count ((row :: rest).map (rowItem table) ++ more) cursor
        kept finished =
        settle digest breaker count (rest.map (rowItem table) ++ more) (cursorIn digest table (read ++ [row])) (kept + 1)
          finished := by
      intro hne
      rw [List.map_cons, List.cons_append, rowItem, settle, if_neg hne, rowText_line htable, hcursor]
      dsimp only
      rw [show (cursorIn digest table read).hash = hashOf digest read from rfl, hashOf_snoc]
      dsimp only
      congr 1
      simp [cursorIn, lastRowid]
    have hcursor' : cursorAt digest (cursorIn digest table (read ++ [row])) table = cursorIn digest table (read ++ [row]) := by
      simp [cursorAt, cursorIn]
    by_cases hne : kept = count
    · subst hne
      refine ⟨?_, ?_⟩
      · intro _
        rw [List.map_cons, List.cons_append, rowItem, settle, if_pos rfl, hcursor]
        simp
      · intro h
        rw [List.length_cons] at h
        omega
    · obtain ⟨hcut, hall⟩ := ih hcursor' (show kept + 1 ≤ count by omega)
      refine ⟨?_, ?_⟩
      · intro h
        rw [List.length_cons] at h
        rw [hstep hne, hcut (by omega), List.append_assoc]
        rw [show count - kept = (count - (kept + 1)) + 1 by omega, List.take_succ_cons]
        rfl
      · intro h
        rw [List.length_cons] at h
        obtain ⟨cursor', hwhere, hat, hsettle⟩ := hall (by omega)
        refine ⟨cursor', ?_, ?_, ?_⟩
        · rcases hwhere with rfl | hwhere
          · exact .inr rfl
          · exact .inr hwhere
        · rw [hat, List.append_assoc]
          rfl
        · rw [hstep hne, hsettle, List.length_cons, Nat.add_assoc, Nat.add_comm 1]

theorem settle_end {breaker : Option String} (more : List Item) {cursor : Cursor} (kept : Nat) (finished : List DumpTable)
    (hcursor : cursorAt digest cursor table.name = cursorIn digest table.name table.rows) :
    settle digest breaker count (.end' table.name :: more) cursor kept finished =
      settle digest breaker count more cursor kept (finished ++ [report digest table]) := by
  rw [settle, hcursor]
  rfl

section
variable (later : List Table) (table : Table) (read rest : List Row) (split : table.rows = read ++ rest)
variable (count kept : Nat) (cursor : Cursor) (finished : List DumpTable)

/-- A cut among the table's own rows does not depend on what follows. -/
theorem settle_cut (htable : isTableName table.name = true)
    (hcursor : cursorAt digest cursor table.name = cursorIn digest table.name read) (h : count < rest.length) :
    settle digest none (kept + count) (Position.stream ⟨table, read, rest, later, split⟩) cursor kept finished =
      some ⟨finished ++ (seek later table read rest split count).1.map (report digest),
        (seek later table read rest split count).2.map (Position.cursor digest)⟩ := by
  obtain ⟨hcut, -⟩ :=
    settle_rows none htable rest (.end' table.name :: stream later) finished hcursor (Nat.le_add_right kept count)
  rw [seek_cut h, Position.stream, hcut (by omega), Nat.add_sub_cancel_left]
  simp [Position.cursor, cursorIn]

/-- Settling over the whole stream is `seek`. -/
theorem settle_stream (hnames : ∀ t ∈ table :: later, isTableName t.name = true)
    (hdistinct : ((table :: later).map Table.name).Nodup)
    (hcursor : cursorAt digest cursor table.name = cursorIn digest table.name read)
    (hfresh : ∀ t ∈ later, cursor.table ≠ t.name) :
    settle digest none (kept + count) (Position.stream ⟨table, read, rest, later, split⟩) cursor kept finished =
      some ⟨finished ++ (seek later table read rest split count).1.map (report digest),
        (seek later table read rest split count).2.map (Position.cursor digest)⟩ := by
  induction later generalizing table read rest count kept cursor finished with
  | nil =>
    by_cases h : count < rest.length
    · exact settle_cut [] table read rest split count kept cursor finished (hnames table List.mem_cons_self) hcursor h
    · obtain ⟨-, hall⟩ := settle_rows none (hnames table List.mem_cons_self) rest (.end' table.name :: stream []) finished hcursor
        (Nat.le_add_right kept count)
      obtain ⟨cursor', -, hat, hsettle⟩ := hall (by omega)
      rw [← split] at hat
      rw [seek_last h, Position.stream, hsettle, settle_end _ _ _ hat]
      simp [stream, settle]
  | cons next later ih =>
    by_cases h : count < rest.length
    · exact settle_cut (next :: later) table read rest split count kept cursor finished
        (hnames table List.mem_cons_self) hcursor h
    · obtain ⟨-, hall⟩ :=
        settle_rows none (hnames table List.mem_cons_self) rest (.end' table.name :: stream (next :: later)) finished
        hcursor (Nat.le_add_right kept count)
      obtain ⟨cursor', hwhere, hat, hsettle⟩ := hall (by omega)
      rw [← split] at hat
      have hother : ∀ t ∈ next :: later, cursor'.table ≠ t.name := by
        intro t ht
        rcases hwhere with rfl | hwhere
        · exact hfresh t ht
        · rw [hwhere]
          intro heq
          rw [List.map_cons, List.nodup_cons] at hdistinct
          exact hdistinct.1 (heq ▸ List.mem_map_of_mem ht)
      have hnext :=
        ih next [] next.rows rfl (count - rest.length) (kept + rest.length) cursor' (finished ++ [report digest table])
        (fun t ht => hnames t (List.mem_cons_of_mem _ ht)) (List.nodup_cons.mp hdistinct).2
        (by rw [cursorAt, if_neg (hother next List.mem_cons_self)]; rfl) (fun t ht => hother t (List.mem_cons_of_mem _ ht))
      rw [show kept + rest.length + (count - rest.length) = kept + count by omega] at hnext
      have hstream : stream (next :: later) = Position.stream ⟨next, [], next.rows, later, rfl⟩ := by
        simp [stream, Position.stream]
      rw [seek_next h, Position.stream, hsettle, settle_end _ _ _ hat, hstream, hnext]
      simp

end

/-- What is collected settles as the whole stream does, up to where the collected rows end. -/
theorem settle_collected {breaker : Option String} (items rest : List Item) {cursor : Cursor} {kept : Nat}
    (finished : List DumpTable) (hkept : kept ≤ count) (hcount : count ≤ kept + (linesOf items).length)
    (hrest : rest = [] ∧ breaker = none ∨ ∃ table rowid line rowStart rest', rest = .row table rowid line rowStart :: rest' ∧
      breaker = some table) :
    settle digest breaker count items cursor kept finished = settle digest none count (items ++ rest) cursor kept finished := by
  induction items generalizing cursor kept finished with
  | nil =>
    rcases hrest with ⟨rfl, rfl⟩ | ⟨table, rowid, line, rowStart, rest', rfl, rfl⟩
    · rfl
    · have heq : kept = count := by
        simp only [linesOf_nil, List.length_nil] at hcount
        omega
      rw [List.nil_append, settle, settle, if_pos heq]
      rfl
  | cons item items ih =>
    cases item with
    | end' table =>
      rw [List.cons_append, settle, settle]
      exact ih _ hkept hcount
    | row table rowid line rowStart =>
      rw [List.cons_append, settle, settle]
      split
      · rfl
      · rename_i hne
        dsimp only
        split
        · rfl
        · refine ih _ (by omega) ?_
          rw [linesOf_row, List.length_cons] at hcount
          omega

/-! ## A part at a position -/

def linesFrom : Option Position → List Bytes
  | none => []
  | some p => linesOf p.stream

def tablesFrom : Option Position → List Table
  | none => []
  | some p => p.table :: p.later

theorem linesOf_position (p : Position) :
    linesOf p.stream = p.rest.map (Row.line · p.table.name) ++ linesOf (stream p.later) := by
  rw [Position.stream, linesOf_append, linesOf_rows, linesOf_end]

theorem lines_rest_le (p : Position) : p.rest.length ≤ (linesOf p.stream).length := by
  rw [linesOf_position, List.length_append, List.length_map]
  omega

/-- `seek` splits the rows and the tables, and reads no more than it is asked to. -/
structure Seeks (p : Position) (count : Nat) (passed : List Table) (next : Option Position) : Prop where
  lines : linesFrom next = (linesOf p.stream).drop count
  ends : next = none ↔ (linesOf p.stream).length ≤ count
  tables : p.table :: p.later = passed ++ tablesFrom next
  passed : ∀ t ∈ passed, t.rows.length ≤ p.read.length + count
  read : ∀ q, next = some q → q.read.length ≤ p.read.length + count

theorem seeks_cut (p : Position) (h : count < p.rest.length) : Seeks p count (p.seek count).1 (p.seek count).2 := by
  rw [Position.seek, seek_cut h]
  refine ⟨?_, ?_, rfl, (fun _ ht => nomatch ht), ?_⟩
  · show linesOf (Position.stream _) = _
    rw [linesOf_position, linesOf_position, List.drop_append_of_le_length (by rw [List.length_map]; omega), List.map_drop]
  · have := lines_rest_le p
    simp only [reduceCtorEq, false_iff, not_le]
    omega
  · rintro q ⟨⟩
    rw [List.length_append, List.length_take]
    omega

theorem seeks (p : Position) (count : Nat) : Seeks p count (p.seek count).1 (p.seek count).2 := by
  obtain ⟨table, read, rest, later, split⟩ := p
  induction later generalizing table read rest count with
  | nil =>
    by_cases h : count < rest.length
    · exact seeks_cut ⟨table, read, rest, [], split⟩ h
    · have hlength : (linesOf (Position.stream ⟨table, read, rest, [], split⟩)).length ≤ count := by
        rw [linesOf_position]
        simp [stream]
        omega
      rw [Position.seek, seek_last h]
      refine ⟨?_, by simpa using hlength, rfl, ?_, (fun _ hq => nomatch hq)⟩
      · rw [List.drop_eq_nil_of_le hlength]
        rfl
      · intro t ht
        rw [List.mem_singleton.mp ht, split, List.length_append]
        dsimp only
        omega
  | cons next later ih =>
    by_cases h : count < rest.length
    · exact seeks_cut ⟨table, read, rest, next :: later, split⟩ h
    · have hmore := ih (count - rest.length) next [] next.rows rfl
      have hlines : linesOf (Position.stream ⟨table, read, rest, next :: later, split⟩) =
          rest.map (Row.line · table.name) ++ linesOf (Position.stream ⟨next, [], next.rows, later, rfl⟩) := by
        rw [linesOf_position]
        simp [stream, Position.stream]
      have hrest : (rest.map (Row.line · table.name)).drop count = [] := List.drop_eq_nil_of_le (by rw [List.length_map]; omega)
      rw [Position.seek, seek_next h]
      refine ⟨?_, ?_, ?_, ?_, ?_⟩
      · rw [hlines, List.drop_append, hrest, List.nil_append, List.length_map]
        exact hmore.lines
      · rw [hlines, List.length_append, List.length_map]
        refine hmore.ends.trans ?_
        omega
      · rw [List.cons_append]
        exact congrArg (table :: ·) hmore.tables
      · intro t ht
        rcases List.mem_cons.mp ht with rfl | ht
        · rw [split, List.length_append]
          dsimp only
          omega
        · have := hmore.passed t ht
          simp only [List.length_nil] at this
          dsimp only
          omega
      · intro q hq
        have := hmore.read q hq
        simp only [List.length_nil] at this
        dsimp only
        omega

/-- A place in the contents' own stream. -/
def At (contents : Contents) (p : Position) : Prop := ∃ before, contents.tables = before ++ p.table :: p.later

/-- A row too large for a part of its own. -/
def TooLarge (codec : Codec) (lines : List Bytes) : Prop :=
  ∃ chunk : List Bytes, chunk.length ≤ 1 ∧ chunk ⊆ lines ∧
    (partMaxRawBytes < chunk.flatten.length ∨ target < (codec.deflateRawSync chunk.flatten).length)

/-- The rows a part answers: `k` of those that follow, the ends passed, and where the next starts. -/
structure Answers (digest : Digest) (codec : Codec) (p : Position) (n k : Nat) (answer : Answer) : Prop where
  part : answer.part = n
  rows : k ≤ partMaxRows
  member : gunzip codec answer.member = some ((linesOf p.stream).take k).flatten
  tables : answer.tables = (p.seek k).1.map (report digest)
  next : answer.next = (p.seek k).2.map (Position.cursor digest)
  size : (p.seek k).2 = none ∧ 0 < answer.member.length ∧ answer.member.length ≤ partSize ∨
    (p.seek k).2 ≠ none ∧ 0 < k ∧ answer.member.length = partSize

variable {contents : Contents}

theorem At.names (h : At contents p) : ∀ t ∈ p.table :: p.later, isTableName t.name = true := by
  obtain ⟨before, hbefore⟩ := h
  intro t ht
  refine contents.names t ?_
  rw [hbefore]
  exact List.mem_append_right _ ht

theorem At.distinct (h : At contents p) : ((p.table :: p.later).map Table.name).Nodup := by
  obtain ⟨before, hbefore⟩ := h
  have hall := contents.distinct
  rw [hbefore, List.map_append] at hall
  exact (List.nodup_append.mp hall).2.1

theorem At.drop (h : At contents p) :
    (contents.tables.any fun table : Table => table.name == p.table.name) = true ∧
    (contents.tables.dropWhile fun table : Table => table.name != p.table.name) = p.table :: p.later := by
  obtain ⟨before, hbefore⟩ := h
  have hall := contents.distinct
  rw [hbefore, List.map_append] at hall
  have hother : ∀ t ∈ before, t.name ≠ p.table.name := by
    intro t ht heq
    exact (List.nodup_append.mp hall).2.2 t.name (List.mem_map_of_mem ht) p.table.name (by simp) heq
  rw [hbefore]
  refine ⟨by simp, ?_⟩
  rw [List.dropWhile_append_of_pos (by simpa using hother), List.dropWhile_cons_of_neg (by simp)]

theorem at_collect {p : Position} (h : At contents p) :
    ∃ result, collect (p.table :: p.later) (some (p.cursor digest)) = some result ∧
    Collects p.stream ⟨[], 0, 0, none⟩ result := by
  have hdistinct := h.distinct
  rw [List.map_cons, List.nodup_cons] at hdistinct
  refine collectTables_spec (p.cursor digest) p ⟨[], 0, 0, none⟩ (Nat.zero_le _) (if_pos rfl) ?_
  intro t ht heq
  apply hdistinct.1
  rw [← show t.name = p.table.name from heq]
  exact List.mem_map_of_mem ht

theorem at_settle (h : At contents p) {collected : Collected} {rest : List Item} (hsplit : p.stream = collected.items ++ rest)
    (hk : k ≤ (linesOf collected.items).length) (hrest : rest = [] ∧ collected.breaker = none ∨
      ∃ table rowid line rowStart rest', rest = .row table rowid line rowStart :: rest' ∧ collected.breaker = some table) :
    settle digest collected.breaker k collected.items (p.cursor digest) 0 [] =
      some ⟨(p.seek k).1.map (report digest), (p.seek k).2.map (Position.cursor digest)⟩ := by
  have hdistinct := h.distinct
  rw [settle_collected collected.items rest [] (Nat.zero_le k) (by simpa using hk) hrest, ← hsplit]
  have hfresh : ∀ t ∈ p.later, (p.cursor digest).table ≠ t.name := by
    intro t ht heq
    rw [List.map_cons, List.nodup_cons] at hdistinct
    apply hdistinct.1
    rw [show p.table.name = t.name from heq]
    exact List.mem_map_of_mem ht
  have hstream :=
    settle_stream p.later p.table p.read p.rest p.split k 0 (p.cursor digest) [] h.names hdistinct (if_pos rfl) hfresh
  rw [Nat.zero_add] at hstream
  exact hstream

/-- What is filled of a collected prefix is answered as the position says. -/
theorem finish_at {p : Position} (h : At contents p) (n : Nat) {collected : Collected} {rest : List Item}
    (hsplit : p.stream = collected.items ++ rest) (hbounded : (linesOf collected.items).length ≤ partMaxRows)
    (hrest : rest = [] ∧ collected.breaker = none ∨ ((linesOf collected.items).length ≠ 0 ∧
      ∃ table rowid line rowStart rest', rest = .row table rowid line rowStart :: rest' ∧ collected.breaker = some table)) :
    (∃ k answer, finish digest codec (some (p.cursor digest)) n (.ok collected) = .ok answer ∧
      Answers digest codec p n k answer) ∨
    (∃ table, finish digest codec (some (p.cursor digest)) n (.ok collected) = .error (.refused (.rowTooLarge table))) ∧
      TooLarge codec (linesOf p.stream) := by
  have hlines : linesOf p.stream = linesOf collected.items ++ linesOf rest := by rw [hsplit, linesOf_append]
  unfold finish
  dsimp only
  rcases @fill_spec codec collected with ⟨filled, hfill, hsize, hcompressed, hkept⟩ | ⟨⟨table, hfill⟩, rows, hrows, hlarge⟩
  · have hk : filled.rows ≤ (linesOf collected.items).length := by
      rcases hkept with ⟨heq, -⟩ | ⟨-, hlt, -⟩
      · exact le_of_eq heq
      · exact le_of_lt hlt
    have hrest' : rest = [] ∧ collected.breaker = none ∨
        ∃ table rowid line rowStart rest', rest = .row table rowid line rowStart :: rest' ∧ collected.breaker = some table := by
      rcases hrest with hrest | ⟨-, hrest⟩
      · exact .inl hrest
      · exact .inr hrest
    rw [hfill]
    dsimp only
    rw [at_settle h hsplit hk hrest']
    refine .inl ⟨filled.rows, _, rfl, rfl, le_trans hk hbounded, ?_, rfl, rfl, ?_⟩
    · rw [gunzip_gzipMember (by rw [hcompressed]; rfl), hlines, List.take_append_of_le_length hk]
      conv_lhs => rw [hcompressed]
      rfl
    · dsimp only
      rw [gzipMember_length hsize]
      have hnone := (seeks p filled.rows).ends
      rw [hlines, List.length_append] at hnone
      rcases hkept with ⟨heq, hlast⟩ | ⟨hpos, hlt, hlast⟩
      · rcases hrest with ⟨rfl, hbreaker⟩ | ⟨hsome, table, rowid, line, rowStart, rest', rfl, hbreaker⟩
        · rw [hbreaker] at hlast
          rw [hlast]
          refine .inl ⟨hnone.mpr (by simp [heq]), ?_, hsize⟩
          exact memberSize_pos hlast
        · rw [hbreaker] at hlast
          rw [hlast]
          refine .inr ⟨?_, by omega, rfl⟩
          intro hend
          have := hnone.mp hend
          rw [linesOf_row, List.length_cons] at this
          omega
      · rw [hlast]
        refine .inr ⟨?_, hpos, rfl⟩
        intro hend
        have := hnone.mp hend
        omega
  · rw [hfill]
    refine .inr ⟨⟨table, rfl⟩, (linesOf collected.items).take rows, ?_, ?_, .inr hlarge⟩
    · exact le_trans (List.length_take_le _ _) hrows
    · intro line hline
      rw [hlines]
      exact List.mem_append_left _ (List.mem_of_mem_take hline)

theorem partOf_at {p : Position} (h : At contents p) {cursor : Option Cursor} (n : Nat)
    (hstart : startOf digest contents cursor = some (p.cursor digest)) :
    (∃ k answer, partOf digest codec contents n cursor = .ok answer ∧ Answers digest codec p n k answer) ∨
    (∃ table, partOf digest codec contents n cursor = .error (.refused (.rowTooLarge table))) ∧
    TooLarge codec (linesOf p.stream) := by
  obtain ⟨result, hcollect, hcollects⟩ := @at_collect digest contents p h
  unfold partOf
  dsimp only
  rw [hstart]
  dsimp only
  rw [show (p.cursor digest).table = p.table.name from rfl, if_pos h.drop.1]
  dsimp only
  rw [h.drop.2, hcollect]
  cases hcollects with
  | all bounded => exact @finish_at digest codec contents p h n _ [] (by simp) (by simpa using bounded) (.inl ⟨rfl, rfl⟩)
  | broke split some' bounded =>
    exact finish_at h n split (by simpa using bounded) (.inr ⟨by simpa using some', _, _, _, _, _, rfl, rfl⟩)
  | @refused kept rest table rowid line rowStart split breaks first =>
    have hnil : linesOf kept = [] := by
      apply List.length_eq_zero_iff.mp
      simpa using first
    refine .inr ⟨⟨_, rfl⟩, [line], le_rfl, ?_, .inl ?_⟩
    · rw [split, linesOf_append, linesOf_row]
      simp
    · rcases breaks with breaks | breaks
      · exact absurd breaks (by decide)
      · simpa [rawOf, hnil] using breaks

/-! ## The wire accepts every answer -/

theorem readCursor_cursor (hname : isTableName p.table.name = true) (hrows : p.read.length ≤ maxSafeInteger) :
    readCursor digest (p.cursor digest) = true := by
  have hafter : (lastRowid p.read).isNone = (p.read.length == 0) := by
    unfold lastRowid
    cases p.read with
    | nil => rfl
    | cons row rest => simp
  have hempty : p.read.length = 0 → hashOf digest p.read = emptyTableHash digest := by
    intro hzero
    rw [List.length_eq_zero_iff.mp hzero]
    rfl
  simp only [readCursor, Position.cursor, hname, hrows, isSha_hashOf, hafter, decide_true, Bool.and_self, beq_self_eq_true,
    Bool.true_and, Bool.not_eq_true', Bool.and_eq_false_iff, beq_eq_false_iff_ne, bne_eq_false_iff_eq]
  by_cases hzero : p.read.length = 0
  · exact .inr (hempty hzero)
  · exact .inl hzero

theorem readDumpTable_report (hname : isTableName table.name = true) (hrows : table.rows.length ≤ maxSafeInteger) :
    readDumpTable digest (report digest table) = true := by
  simp only [readDumpTable, report, hname, hrows, isSha_hashOf, decide_true, Bool.and_self, Bool.true_and, Bool.not_eq_true',
    Bool.and_eq_false_iff, beq_eq_false_iff_ne, bne_eq_false_iff_eq]
  by_cases hzero : table.rows.length = 0
  · refine .inr ?_
    rw [List.length_eq_zero_iff.mp hzero]
    rfl
  · exact .inl hzero

/-- Every part up to R2's count is accepted, its cursor and its table reports among it. -/
theorem parse_at (h : At contents p) (hn : 1 ≤ n) (hmax : n ≤ maxParts) (hread : p.read.length ≤ (n - 1) * partMaxRows)
    (ha : Answers digest codec p n k answer) : parseOpsExportPartAck digest answer = true := by
  have hseeks := seeks p k
  have hcount : p.read.length + k ≤ maxSafeInteger := by
    have := ha.rows
    have hbound : (n - 1) * partMaxRows ≤ maxParts * partMaxRows := Nat.mul_le_mul_right _ (by omega)
    simp only [maxParts, partMaxRows, maxSafeInteger] at *
    omega
  have htables : p.table :: p.later = (p.seek k).1 ++ tablesFrom (p.seek k).2 := hseeks.tables
  have hnames := h.names
  have hdistinct := h.distinct
  rw [htables] at hnames hdistinct
  rw [List.map_append] at hdistinct
  have hreports : readTables digest answer.tables = true := by
    rw [ha.tables, readTables, Bool.and_eq_true, List.all_eq_true, decide_eq_true_eq]
    refine ⟨?_, ?_⟩
    · intro report' hreport
      obtain ⟨table, htable, rfl⟩ := List.mem_map.mp hreport
      exact readDumpTable_report (hnames table (List.mem_append_left _ htable)) (le_trans (hseeks.passed table htable) hcount)
    · rw [List.map_map]
      exact (List.nodup_append.mp hdistinct).1
  have hsize : 0 < answer.member.length ∧ answer.member.length ≤ partSize := by
    rcases ha.size with ⟨-, hpos, hle⟩ | ⟨-, -, heq⟩
    · exact ⟨hpos, hle⟩
    · rw [heq]
      exact ⟨by decide, le_rfl⟩
  unfold parseOpsExportPartAck
  rw [ha.part, hreports]
  simp only [readPartNumber, hn, hmax, decide_true, Bool.and_true, Bool.true_and, hsize.2, bne_iff_ne, Bool.and_eq_true,
    Bool.not_eq_true', Bool.or_eq_true, Option.isNone_iff_eq_none, beq_iff_eq]
  cases hnext : (p.seek k).2 with
  | none =>
    rw [ha.next, hnext]
    exact ⟨⟨⟨Nat.ne_of_gt hsize.1, rfl⟩, rfl⟩, .inl rfl⟩
  | some q =>
    rw [ha.next, hnext]
    rw [hnext] at hnames hdistinct
    have hq := hnames q.table (List.mem_append_right _ List.mem_cons_self)
    refine ⟨⟨⟨Nat.ne_of_gt hsize.1, ?_⟩, ?_⟩, .inr ?_⟩
    · exact readCursor_cursor hq (le_trans (hseeks.read q hnext) hcount)
    · rw [Option.map_some, Option.any_some, ha.tables, List.any_eq_false]
      intro report' hreport
      obtain ⟨table, htable, rfl⟩ := List.mem_map.mp hreport
      have hne := (List.nodup_append.mp hdistinct).2.2 table.name (List.mem_map_of_mem htable) q.table.name (by simp [tablesFrom])
      simpa [report, Position.cursor] using hne
    · rcases ha.size with ⟨hnone, -, -⟩ | ⟨-, -, heq⟩
      · rw [hnext] at hnone
        cases hnone
      · exact heq

/-! ## The chain -/

/-- What a chain of parts from the `n`th has done with the rows `lines` and the tables `tables`
    that were left when it started. -/
structure Partitions (digest : Digest) (codec : Codec) (contents : Contents) (tables : List Table) (lines : List Bytes) (n : Nat)
    (cursor : Option Cursor) (answers : List Answer) (stop : Stop) (upload : Upload) : Prop where
  /-- Each part decompresses to the next rows, none skipped and none repeated. -/
  rows : ∃ chunks : List (List Bytes), (answers.map fun answer => gunzip codec answer.member) =
    chunks.map (fun chunk => some chunk.flatten) ∧
    chunks.flatten <+: lines ∧ (stop = .ended → chunks.flatten = lines) ∧ ∀ chunk ∈ chunks, chunk.length ≤ partMaxRows
  /-- Each table is reported once, in plan order, with its row count and the fold over its rows. -/
  finished : (answers.flatMap (·.tables)) <+: tables.map (report digest) ∧
    (stop = .ended → (answers.flatMap (·.tables)) = tables.map (report digest))
  numbered : answers.map (·.part) = List.range' n answers.length
  accepted : ∀ answer ∈ answers, parseOpsExportPartAck digest answer = true
  /-- Every part but the last has the part size and a cursor the wire accepts. -/
  sized : ∀ answer ∈ answers, answer.next = none ∨ answer.member.length = partSize ∧ ∀ next ∈ answer.next,
    readCursor digest next = true
  uploaded : ∀ answer ∈ answers, upload answer.part = some answer.member
  /-- A step served again answers the same part and leaves the upload as it is. -/
  retried : ∀ step ∈ (cursor :: answers.map (·.next)).zip answers,
    part digest codec contents step.2.part step.1 upload = (upload, .ok step.2)
  /-- It ends, or a row is too large for a part, or R2's count of parts is used up. -/
  stops : stop = .ended ∨ (∃ m table, stop = .failed m (.refused (.rowTooLarge table)) ∧ TooLarge codec lines) ∨
    stop = .failed (maxParts + 1) .threw ∧ n + answers.length = maxParts + 1

theorem TooLarge.mono {lines lines' : List Bytes} (h : TooLarge codec lines) (hsub : lines ⊆ lines') : TooLarge codec lines' := by
  obtain ⟨chunk, hlength, hchunk, hlarge⟩ := h
  exact ⟨chunk, hlength, fun line hline => hsub (hchunk hline), hlarge⟩

theorem partitions_stopped {tables : List Table} {lines : List Bytes} {cursor : Option Cursor} {stop : Stop}
    (hstops : (∃ m table, stop = .failed m (.refused (.rowTooLarge table)) ∧ TooLarge codec lines) ∨
      stop = .failed (maxParts + 1) .threw ∧ n = maxParts + 1) :
    Partitions digest codec contents tables lines n cursor [] stop upload := by
  have hnot : stop ≠ .ended := by
    rintro rfl
    rcases hstops with ⟨_, _, h, -⟩ | ⟨h, -⟩ <;> cases h
  refine ⟨⟨[], rfl, List.nil_prefix, fun h => absurd h hnot, fun _ h => nomatch h⟩,
    ⟨List.nil_prefix, fun h => absurd h hnot⟩, rfl,
    (fun _ h => nomatch h), (fun _ h => nomatch h), (fun _ h => nomatch h), (fun _ h => nomatch h), ?_⟩
  rcases hstops with h | ⟨h, hn⟩
  · exact .inr (.inl h)
  · exact .inr (.inr ⟨h, hn⟩)

/-- What a step uploads is there already when it is served again. -/
theorem part_again {cursor : Option Cursor} (hpart : partOf digest codec contents n cursor = .ok answer)
    (hparse : parseOpsExportPartAck digest answer = true) (hupload : upload n = some answer.member) :
    part digest codec contents n cursor upload = (upload, .ok answer) := by
  unfold part
  rw [hpart]
  dsimp only
  rw [if_pos hparse]
  have hsame : (fun m => if m = n then some answer.member else upload m) = upload := by
    funext m
    by_cases hm : m = n
    · rw [if_pos hm, hm, hupload]
    · rw [if_neg hm]
  rw [hsame]

theorem Answers.sized (ha : Answers digest codec p n k answer) (hparse : parseOpsExportPartAck digest answer = true) :
    answer.next = none ∨ answer.member.length = partSize ∧ ∀ next ∈ answer.next, readCursor digest next = true := by
  rcases ha.size with ⟨hnone, -, -⟩ | ⟨-, -, heq⟩
  · exact .inl (by rw [ha.next, hnone]; rfl)
  · refine .inr ⟨heq, ?_⟩
    intro next hnext
    unfold parseOpsExportPartAck at hparse
    simp only [Bool.and_eq_true] at hparse
    have hall := hparse.1.1.2
    rw [show answer.next = some next from hnext] at hall
    exact hall

/-- The part that ends the chain. -/
theorem partitions_last {cursor : Option Cursor} (ha : Answers digest codec p n k answer)
    (hpart : partOf digest codec contents n cursor = .ok answer) (hparse : parseOpsExportPartAck digest answer = true)
    (hnext : (p.seek k).2 = none) (hupload : upload n = some answer.member) :
    Partitions digest codec contents (p.table :: p.later) (linesOf p.stream) n cursor [answer] .ended upload := by
  have hseeks := seeks p k
  have hall : (linesOf p.stream).take k = linesOf p.stream := List.take_of_length_le (hseeks.ends.mp hnext)
  have hpassed : answer.tables = (p.table :: p.later).map (report digest) := by
    rw [ha.tables, hseeks.tables, hnext]
    simp [tablesFrom]
  refine ⟨⟨[linesOf p.stream], ?_, by simp, fun _ => by simp, ?_⟩, ⟨by simp [hpassed], fun _ => by simpa using hpassed⟩,
    by simp [ha.part], ?_, ?_, ?_, ?_, .inl rfl⟩
  · simp only [List.map_cons, List.map_nil, ha.member, hall]
  · intro chunk hchunk
    rw [List.mem_singleton.mp hchunk, ← hall]
    exact le_trans (List.length_take_le _ _) ha.rows
  · intro a hmem
    rwa [List.mem_singleton.mp hmem]
  · intro a hmem
    rw [List.mem_singleton.mp hmem]
    exact ha.sized hparse
  · intro a hmem
    rw [List.mem_singleton.mp hmem, ha.part]
    exact hupload
  · intro step hstep
    have heq : step = (cursor, answer) := by simpa using hstep
    rw [heq, ha.part]
    exact part_again hpart hparse hupload

/-- A part, and the chain from the position after it. -/
theorem Partitions.cons {p q : Position} {n k : Nat} {cursor : Option Cursor} {answer : Answer} {answers : List Answer}
    {stop : Stop}
    {upload : Upload} (ha : Answers digest codec p n k answer) (hpart : partOf digest codec contents n cursor = .ok answer)
    (hparse : parseOpsExportPartAck digest answer = true) (hnext : (p.seek k).2 = some q)
    (hupload : upload n = some answer.member)
    (hmore : Partitions digest codec contents (q.table :: q.later) (linesOf q.stream) (n + 1) (some (q.cursor digest)) answers
      stop upload) :
    Partitions digest codec contents (p.table :: p.later) (linesOf p.stream) n cursor (answer :: answers) stop upload := by
  have hseeks := seeks p k
  have htables : p.table :: p.later = (p.seek k).1 ++ q.table :: q.later := by rw [hseeks.tables, hnext]; rfl
  have hlines : linesOf q.stream = (linesOf p.stream).drop k := by
    have := hseeks.lines
    rwa [hnext] at this
  have hreports : answer.tables ++ (q.table :: q.later).map (report digest) = (p.table :: p.later).map (report digest) := by
    rw [ha.tables, htables, List.map_append]
  obtain ⟨chunks, hchunks, hpre, hended, hcounts⟩ := hmore.rows
  refine ⟨⟨(linesOf p.stream).take k :: chunks, ?_, ?_, ?_, ?_⟩, ⟨?_, ?_⟩, ?_, ?_, ?_, ?_, ?_, ?_⟩
  · simp only [List.map_cons, ha.member, hchunks]
  · rw [List.flatten_cons]
    conv_rhs => rw [← List.take_append_drop k (linesOf p.stream), ← hlines]
    exact (List.prefix_append_right_inj _).mpr hpre
  · intro hstop
    rw [List.flatten_cons, hended hstop, hlines, List.take_append_drop]
  · intro chunk hchunk
    rcases List.mem_cons.mp hchunk with rfl | hchunk
    · exact le_trans (List.length_take_le _ _) ha.rows
    · exact hcounts chunk hchunk
  · rw [List.flatMap_cons, ← hreports]
    exact (List.prefix_append_right_inj _).mpr hmore.finished.1
  · intro hstop
    rw [List.flatMap_cons, hmore.finished.2 hstop, hreports]
  · rw [List.map_cons, ha.part, hmore.numbered, List.length_cons, List.range'_succ]
  · intro a hmem
    rcases List.mem_cons.mp hmem with rfl | hmem
    · exact hparse
    · exact hmore.accepted a hmem
  · intro a hmem
    rcases List.mem_cons.mp hmem with rfl | hmem
    · exact ha.sized hparse
    · exact hmore.sized a hmem
  · intro a hmem
    rcases List.mem_cons.mp hmem with rfl | hmem
    · rw [ha.part]
      exact hupload
    · exact hmore.uploaded a hmem
  · intro step hstep
    rw [List.map_cons, List.zip_cons_cons] at hstep
    rcases List.mem_cons.mp hstep with rfl | hstep
    · rw [show (cursor, answer).2.part = n from ha.part]
      exact part_again hpart hparse hupload
    · rw [ha.next, hnext] at hstep
      exact hmore.retried step hstep
  · rcases hmore.stops with hstop | ⟨m, table, hstop, hlarge⟩ | ⟨hstop, hlength⟩
    · exact .inl hstop
    · refine .inr (.inl ⟨m, table, hstop, hlarge.mono ?_⟩)
      rw [hlines]
      exact List.drop_subset _ _
    · refine .inr (.inr ⟨hstop, ?_⟩)
      rw [List.length_cons]
      omega

/-- A chain from a position, its parts numbered from `n`. -/
theorem chain_at (fuel : Nat) {p : Position} (h : At contents p) {n : Nat} {cursor : Option Cursor} (upload : Upload) (hn : 1 ≤ n)
    (hmax : n ≤ maxParts + 1) (hfuel : maxParts + 1 < n + fuel) (hread : p.read.length ≤ (n - 1) * partMaxRows)
    (hstart : startOf digest contents cursor = some (p.cursor digest)) :
    Partitions digest codec contents (p.table :: p.later) (linesOf p.stream) n cursor
        (chain digest codec contents fuel n cursor upload).1 (chain digest codec contents fuel n cursor upload).2.1
        (chain digest codec contents fuel n cursor upload).2.2 ∧
      ∀ m < n, (chain digest codec contents fuel n cursor upload).2.2 m = upload m := by
  induction fuel generalizing p n cursor upload with
  | zero => omega
  | succ fuel ih =>
    unfold chain
    rcases @partOf_at digest codec contents p h cursor n hstart with ⟨k, answer, hpart, ha⟩ | ⟨⟨table, hpart⟩, hlarge⟩
    · by_cases hlast : n = maxParts + 1
      · -- R2 takes no more parts: the answer does not parse.
        have hparse : parseOpsExportPartAck digest answer = false := by
          unfold parseOpsExportPartAck
          rw [ha.part, hlast]
          rfl
        have hserved : part digest codec contents n cursor upload =
            (fun m => if m = n then some answer.member else upload m, .error .threw) := by
          unfold part
          rw [hpart]
          simp [hparse]
        rw [hserved]
        refine ⟨partitions_stopped (.inr ⟨by rw [hlast], hlast⟩), ?_⟩
        intro m hm
        exact if_neg (Nat.ne_of_lt hm)
      · have hparse := parse_at h hn (by omega) hread ha
        have hserved : part digest codec contents n cursor upload =
            (fun m => if m = n then some answer.member else upload m, .ok answer) := by
          unfold part
          rw [hpart]
          simp [hparse]
        rw [hserved]
        dsimp only
        cases hnext : (p.seek k).2 with
        | none =>
          rw [show answer.next = none by rw [ha.next, hnext]; rfl]
          refine ⟨partitions_last ha hpart hparse hnext (if_pos rfl), ?_⟩
          intro m hm
          exact if_neg (Nat.ne_of_lt hm)
        | some q =>
          rw [show answer.next = some (q.cursor digest) by rw [ha.next, hnext]; rfl]
          dsimp only
          have hseeks := seeks p k
          have hq : At contents q := by
            obtain ⟨before, hbefore⟩ := h
            refine ⟨before ++ (p.seek k).1, ?_⟩
            rw [hbefore, hseeks.tables, hnext, List.append_assoc]
            rfl
          have hbound : q.read.length ≤ (n + 1 - 1) * partMaxRows := by
            have hle := hseeks.read q hnext
            have hk := ha.rows
            have hmul : (n - 1) * partMaxRows + partMaxRows = (n + 1 - 1) * partMaxRows := by
              rw [← Nat.succ_mul]
              congr 1
              omega
            omega
          obtain ⟨hmore, hkept⟩ :=
            @ih q hq (n + 1) (some (q.cursor digest)) (fun m => if m = n then some answer.member else upload m)
            (by omega) (by omega) (by omega) hbound rfl
          refine ⟨hmore.cons ha hpart hparse hnext ?_, ?_⟩
          · rw [hkept n (Nat.lt_succ_self n), if_pos rfl]
          · intro m hm
            rw [hkept m (by omega), if_neg (by omega)]
    · have hserved : part digest codec contents n cursor upload = (upload, .error (.refused (.rowTooLarge table))) := by
        unfold part
        rw [hpart]
      rw [hserved]
      exact ⟨partitions_stopped (.inl ⟨n, table, rfl, hlarge⟩), fun _ _ => rfl⟩

/-- A plan without a table: one empty part. -/
theorem chain_empty (fuel : Nat) (hempty : contents.tables = []) (upload : Upload) :
    Partitions digest codec contents [] [] 1 none (chain digest codec contents (fuel + 1) 1 none upload).1
      (chain digest codec contents (fuel + 1) 1 none upload).2.1 (chain digest codec contents (fuel + 1) 1 none upload).2.2 := by
  have hpart : partOf digest codec contents 1 none = finish digest codec none 1 (.ok ⟨[], none⟩) := by
    simp [partOf, startOf, hempty, collect]
  rcases @fill_spec codec ⟨[], none⟩ with ⟨filled, hfill, hsize, hcompressed, hkept⟩ | ⟨⟨table, hfill⟩, rows, hrows, hlarge⟩
  · have hlast : filled.last = true := by
      rcases hkept with ⟨-, hlast⟩ | ⟨-, hlt, -⟩
      · exact hlast
      · exact absurd hlt (Nat.not_lt_zero _)
    have hanswer : partOf digest codec contents 1 none = .ok ⟨1, gzipMember codec filled, [], none⟩ := by
      rw [hpart, finish, hfill]
    have hlength : (gzipMember codec filled).length = memberSize filled := by rw [gzipMember_length hsize, hlast]; rfl
    have hpos : 0 < memberSize filled := memberSize_pos hlast
    have hparse : parseOpsExportPartAck digest ⟨1, gzipMember codec filled, [], none⟩ = true := by
      simp only [parseOpsExportPartAck, hlength]
      simp [readPartNumber, maxParts, readTables, hsize, Nat.ne_of_gt hpos]
    have hraw : gunzip codec (gzipMember codec filled) = some [] := by
      rw [gunzip_gzipMember (by rw [hcompressed]; rfl), hcompressed]
      simp [compressed]
    have hserved : part digest codec contents 1 none upload =
        (fun m => if m = 1 then some (gzipMember codec filled) else upload m, .ok ⟨1, gzipMember codec filled, [], none⟩) := by
      unfold part
      rw [hanswer]
      simp [hparse]
    unfold chain
    rw [hserved]
    dsimp only
    refine ⟨⟨[[]], by simp [hraw], by simp, by simp, by simp⟩, ⟨by simp, by simp⟩, rfl, by simpa using hparse, by simp, by simp,
      ?_, .inl rfl⟩
    intro step hstep
    have heq : step = (none, ⟨1, gzipMember codec filled, [], none⟩) := by simpa using hstep
    rw [heq]
    exact part_again hanswer hparse (if_pos rfl)
  · have hrefused : part digest codec contents 1 none upload = (upload, .error (.refused (.rowTooLarge table))) := by
      unfold part
      rw [hpart, finish, hfill]
    unfold chain
    rw [hrefused]
    refine partitions_stopped (.inl ⟨1, table, rfl, [], Nat.zero_le 1, List.nil_subset _, .inr ?_⟩)
    simpa [deflatedSize] using hlarge

/-- The chain of a dump, from part 1 without a cursor to the part that answers none. -/
def dump (digest : Digest) (codec : Codec) (contents : Contents) : List Answer × Stop × Upload :=
  chain digest codec contents (maxParts + 1) 1 none fun _ => none

/-- The parts of every dump partition the database: until a row does not fit a part alone, or R2's
    count of parts is used up, they hold the rows in order, each once; a dump that ends holds all
    of them and has reported each table once, with its row count and hash. -/
theorem parts_partition (digest : Digest) (codec : Codec) (contents : Contents) :
    Partitions digest codec contents contents.tables contents.lines 1 none (dump digest codec contents).1
    (dump digest codec contents).2.1
      (dump digest codec contents).2.2 := by
  have hlines : contents.lines = linesOf (stream contents.tables) := (linesOf_stream _).symm
  cases htables : contents.tables with
  | nil =>
    have hnone : contents.lines = [] := by rw [hlines, htables]; rfl
    rw [hnone]
    exact chain_empty maxParts htables _
  | cons first later =>
    let p : Position := ⟨first, [], first.rows, later, rfl⟩
    have hp : At contents p := ⟨[], htables⟩
    have hall : contents.lines = linesOf p.stream := by
      rw [hlines, htables]
      simp [p, stream, Position.stream]
    rw [hall]
    refine (chain_at (maxParts + 1) hp _ le_rfl (by decide) (by omega) (Nat.zero_le _) ?_).1
    unfold startOf
    rw [htables]
    rfl

/-! ## More rows than R2's parts hold -/

theorem flatten_length_le {chunks : List (List Bytes)} {bound : Nat} (h : ∀ chunk ∈ chunks, chunk.length ≤ bound) :
    chunks.flatten.length ≤ chunks.length * bound := by
  induction chunks with
  | nil => exact Nat.zero_le _
  | cons chunk rest ih =>
    have hchunk := h chunk List.mem_cons_self
    have hrest := ih fun c hc => h c (List.mem_cons_of_mem _ hc)
    rw [List.flatten_cons, List.length_append, List.length_cons, Nat.succ_mul]
    omega

/-- A dump that ends within R2's parts has no more rows than they hold. -/
theorem dump_rows_le (hended : (dump digest codec contents).2.1 = .ended) : contents.lines.length ≤ maxParts * partMaxRows := by
  have h := parts_partition digest codec contents
  obtain ⟨chunks, hchunks, -, hall, hcounts⟩ := h.rows
  have hparts : (dump digest codec contents).1.length ≤ maxParts := by
    by_contra hmore
    -- The part after the last that R2 takes would have been answered.
    have hlast : maxParts + 1 ∈ (dump digest codec contents).1.map (·.part) := by
      rw [h.numbered, List.mem_range']
      exact ⟨maxParts, by omega, by omega⟩
    obtain ⟨answer, hanswer, hpart⟩ := List.mem_map.mp hlast
    have hparse := h.accepted answer hanswer
    unfold parseOpsExportPartAck at hparse
    rw [hpart] at hparse
    simp only [readPartNumber, Bool.and_eq_true, decide_eq_true_eq] at hparse
    exact absurd hparse.1.1.1.1.1.2 (by decide)
  have hlength : chunks.length = (dump digest codec contents).1.length := by
    have := congrArg List.length hchunks
    simpa using this.symm
  rw [← hall hended]
  exact le_trans (flatten_length_le hcounts) (Nat.mul_le_mul_right _ (by omega))

/-- A table `t` of `n` rows with one empty column. -/
def plainTable (n : Nat) (h : n ≤ 2 ^ 63) : Table where
  name := "t"
  rows := List.ofFn fun i : Fin n => ⟨⟨(i.val : Int), by have := i.isLt; unfold isInt64; omega⟩, [.null]⟩
  ordered := by
    rw [List.pairwise_ofFn]
    intro i j hij
    show (i.val : Int) < (j.val : Int)
    exact_mod_cast hij

def plainContents (n : Nat) (h : n ≤ 2 ^ 63) : Contents where
  tables := [plainTable n h]
  names := by
    intro table htable
    rw [List.mem_singleton.mp htable]
    show isTableName "t" = true
    decide
  distinct := List.nodup_singleton _

/-- A codec that compresses nothing, and a hash of one value. -/
def plainCodec : Codec where
  deflateRawSync raw := raw
  inflate deflated := some deflated
  crc32 _ := [0, 0, 0, 0]
  inflates _ := rfl
  crc_length _ := rfl

def zeroDigest : Digest where
  sha256Hex _ := String.ofList (List.replicate 64 '0')
  hex_digits _ := by decide

theorem utf8_length_le (text : Text) : (utf8 text).length ≤ 4 * text.length := by
  induction text with
  | nil => exact Nat.zero_le _
  | cons c rest ih =>
    have hc : (String.utf8EncodeChar c).length ≤ 4 := by
      rw [String.length_utf8EncodeChar]
      exact c.utf8Size_le_four
    rw [show utf8 (c :: rest) = String.utf8EncodeChar c ++ utf8 rest from rfl, List.length_append, List.length_cons]
    omega

theorem plainContents_length (n : Nat) (h : n ≤ 2 ^ 63) : (plainContents n h).lines.length = n := by
  simp [Contents.lines, plainContents, plainTable]

theorem plainRow_line (rowid : Rowid) (hdigits : (toString rowid.1).toList.length ≤ 20) :
    (Row.line ⟨rowid, [.null]⟩ "t").length ≤ 400 := by
  have hrow : (encodeOpsDumpRow [.integer rowid, .null]).length ≤ 40 := by
    have hvalue : (encodeValue (.integer rowid)).length ≤ 25 := by
      rw [encodeValue_integer, List.length_append, List.length_append]
      have : "\"i:".toList.length = 3 := by decide
      have : "\"".toList.length = 1 := by decide
      omega
    have : "[".toList.length = 1 := by decide
    have : "]".toList.length = 1 := by decide
    have hboth : List.intercalate [','] [encodeValue (.integer rowid), encodeValue .null] = encodeValue (.integer rowid) ++
        ",null".toList := by
      simp [List.intercalate, List.intersperse, encodeValue_null]
    have : ",null".toList.length = 5 := by decide
    rw [encodeOpsDumpRow, List.map_cons, List.map_singleton, hboth, List.length_append, List.length_append, List.length_append]
    omega
  have hstart : (lineStart "t").length ≤ 40 := by decide
  have hend : "\x7d".toList.length = 1 := by decide
  have hle := utf8_length_le (encodeOpsDumpLine "t" [.integer rowid, .null] ++ ['\n'])
  rw [encodeOpsDumpLine, List.length_append, List.length_append, List.length_append, hend, List.length_singleton] at hle
  exact le_trans hle (by omega)

theorem plainContents_lines (h : n ≤ 2 ^ 63) : ∀ line ∈ (plainContents n h).lines, line.length ≤ 400 := by
  intro line hline
  simp only [Contents.lines, plainContents, List.flatMap_cons, List.flatMap_nil, List.append_nil, List.mem_map] at hline
  obtain ⟨row, hrow, rfl⟩ := hline
  obtain ⟨i, rfl⟩ := List.mem_ofFn.mp (show row ∈ List.ofFn _ from hrow)
  apply plainRow_line
  have hlt : i.val < 10 ^ 20 := by
    have := i.isLt
    omega
  rw [show toString (i.val : Int) = Nat.repr i.val from rfl, String.length_toList]
  exact (Nat.length_repr_le_iff (show 0 < 20 by decide)).mpr hlt

/-- One row more than ten thousand parts of fifty thousand rows. -/
def largeContents : Contents := plainContents 500000001 (by decide)

/-- However it compresses, it does not end; and no row of it is too large for a part. -/
theorem a_large_table_is_cut_off : (∀ digest codec, (dump digest codec largeContents).2.1 ≠ .ended) ∧
    (dump zeroDigest plainCodec largeContents).2.1 = .failed 10001 .threw := by
  have hnever : ∀ digest codec, (dump digest codec largeContents).2.1 ≠ .ended := by
    intro digest codec hended
    have hle := dump_rows_le hended
    rw [largeContents, plainContents_length] at hle
    exact absurd hle (by decide)
  refine ⟨hnever, ?_⟩
  rcases (parts_partition zeroDigest plainCodec largeContents).stops with hended | ⟨m, table, -, chunk, hone, hchunk,
    hlarge⟩ | ⟨hstop, -⟩
  · exact absurd hended (hnever _ _)
  · exfalso
    have hshort : chunk.flatten.length ≤ 400 := by
      cases chunk with
      | nil => exact Nat.zero_le _
      | cons line rest =>
        have hnil : rest = [] := List.length_eq_zero_iff.mp (by rw [List.length_cons] at hone; omega)
        rw [hnil, List.flatten_cons, List.flatten_nil, List.append_nil]
        exact plainContents_lines _ line (hchunk List.mem_cons_self)
    rcases hlarge with hlarge | hlarge
    · simp only [partMaxRawBytes] at hlarge
      omega
    · simp only [plainCodec, target, partSize, paddedOverhead] at hlarge
      omega
  · exact hstop

end Fabrika.App.Export
