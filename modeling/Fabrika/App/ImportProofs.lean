/-
  Fabrika.App.ImportProofs — an import completes only on exactly the backup's data (see
  `Fabrika.App.Import`).

  A verification in the marker always stands for the tables as they are: those it passed match the
  manifest, and its cursor is the place between two rows it was handed out at (`Stands`). Every
  step that writes rows resets it, so `complete` finds a finished one only where every table
  matches. The log of a run (`World`) is what the receipts in KV storage are held to.
-/

import Fabrika.App.Import
import Fabrika.App.ExportProofs

namespace Fabrika.App.Import

open Fabrika.AuthCore.OpsDump Fabrika.App.Export

variable {digest : Digest} {runtime : Runtime} {bucket : Bucket} {release : List Bundle}

/-! ## An encoded row names its values -/

theorem toString_int_inj {a b : Int} (h : (toString a).toList = (toString b).toList) : a = b := by
  have hdigits : ∀ n m : Nat, Nat.toDigits 10 n = Nat.toDigits 10 m → n = m := by
    intro n m e
    rw [← Nat.ofDigitChars_ten_toDigits (n := n), e, Nat.ofDigitChars_ten_toDigits]
  -- No digit is a minus sign.
  have hminus : ∀ n m : Nat, Nat.toDigits 10 n ≠ '-' :: Nat.toDigits 10 m := by
    intro n m e
    have hdigit := Nat.isDigit_of_mem_toDigits (b := 10) (n := n) (c := '-') (by decide) (by decide) (by simp [e])
    exact absurd hdigit (by decide)
  cases a with
  | ofNat n =>
    cases b with
    | ofNat m => exact congrArg Int.ofNat (hdigits n m (by simpa [toString, Int.repr] using h))
    | negSucc m => exact absurd (by simpa [toString, Int.repr] using h) (hminus n (m + 1))
  | negSucc n =>
    cases b with
    | ofNat m => exact absurd (by simpa [toString, Int.repr] using h.symm) (hminus m (n + 1))
    | negSucc m =>
      have hsame : n + 1 = m + 1 := hdigits _ _ (by simpa [toString, Int.repr] using h)
      exact congrArg Int.negSucc (by omega)

variable {db : Database} {marker : Marker} {source : Source} {manifest : Manifest}

theorem hexDigit_inj {n m : Nat} (hn : n < 16) (hm : m < 16) (h : hexDigit n = hexDigit m) : n = m := by
  have hall : ∀ n < 16, ∀ m < 16, hexDigit n = hexDigit m → n = m := by decide
  exact hall n hn m hm h

theorem hex_inj {a b : Bytes} (h : hex a = hex b) : a = b := by
  induction a generalizing b with
  | nil =>
    cases b with
    | nil => rfl
    | cons y b => simp [hex] at h
  | cons x a ih =>
    cases b with
    | nil => simp [hex] at h
    | cons y b =>
      simp only [hex, List.flatMap_cons, List.cons_append, List.nil_append, List.cons.injEq] at h
      obtain ⟨hhigh, hlow, hrest⟩ := h
      have hx := x.toNat_lt
      have hy := y.toNat_lt
      have hdiv := hexDigit_inj (by omega) (by omega) hhigh
      have hmod := hexDigit_inj (by omega) (by omega) hlow
      have hbyte : x.toNat = y.toNat := by omega
      rw [UInt8.toNat_inj.mp hbyte, ih hrest]

theorem hexDigit_plain {n : Nat} (h : n < 16) : hexDigit n ≠ ',' ∧ hexDigit n ≠ '"' := by
  have hall : ∀ n < 16, hexDigit n ≠ ',' ∧ hexDigit n ≠ '"' := by decide
  exact hall n h

theorem hex_plain {bytes : Bytes} {c : Char} (h : c ∈ hex bytes) : c ≠ ',' := by
  obtain ⟨b, -, hc⟩ := List.mem_flatMap.mp h
  have hb := b.toNat_lt
  simp only [List.mem_cons, List.not_mem_nil, or_false] at hc
  rcases hc with rfl | rfl
  · exact (hexDigit_plain (by omega)).1
  · exact (hexDigit_plain (by omega)).1

theorem toString_int_plain {n : Int} {c : Char} (h : c ∈ (toString n).toList) : c ≠ ',' := by
  have hdigit : ∀ m : Nat, c ∈ Nat.toDigits 10 m → c ≠ ',' := by
    rintro m hc rfl
    exact absurd (Nat.isDigit_of_mem_toDigits (by decide) (by decide) hc) (by decide)
  cases n with
  | ofNat m => exact hdigit m (by simpa [toString, Int.repr] using h)
  | negSucc m =>
    have hc : c = '-' ∨ c ∈ Nat.toDigits 10 (m + 1) := by simpa [toString, Int.repr] using h
    rcases hc with rfl | hc
    · decide
    · exact hdigit _ hc

theorem encodeValue_plain {value : Value} (h : Value.isPrinted value = true) : ',' ∉ encodeValue value := by
  intro hc
  cases value with
  | null => exact absurd hc (by decide)
  | integer n =>
    simp only [encodeValue_integer, List.mem_append, or_assoc] at hc
    rcases hc with hc | hc | hc
    · exact absurd hc (by decide)
    · exact toString_int_plain hc rfl
    · exact absurd hc (by decide)
  | real shortest =>
    simp only [encodeValue_real, List.mem_append, or_assoc] at hc
    rcases hc with hc | hc | hc
    · exact absurd hc (by decide)
    · simp [Value.isPrinted, hc] at h
    · exact absurd hc (by decide)
  | text bytes =>
    simp only [encodeValue_text, List.mem_append, or_assoc] at hc
    rcases hc with hc | hc | hc
    · exact absurd hc (by decide)
    · exact hex_plain hc rfl
    · exact absurd hc (by decide)
  | blob bytes =>
    simp only [encodeValue_blob, List.mem_append, or_assoc] at hc
    rcases hc with hc | hc | hc
    · exact absurd hc (by decide)
    · exact hex_plain hc rfl
    · exact absurd hc (by decide)

theorem encodeValue_inj {a b : Value} (h : encodeValue a = encodeValue b) : a = b := by
  cases a <;> cases b <;> simp [encodeValue_null, encodeValue_integer, encodeValue_real, encodeValue_text, encodeValue_blob] at h
  · rfl
  · exact congrArg Value.integer (Subtype.ext (toString_int_inj (by simpa using h)))
  · exact congrArg Value.real (String.toList_inj.mp h)
  · exact congrArg Value.text (hex_inj h)
  · exact congrArg Value.blob (hex_inj h)

/-- Two rows of the same encoding are the same row. -/
theorem rowEncoding_inj {a b : Row} (ha : a.values.all Value.isPrinted = true) (hb : b.values.all Value.isPrinted = true)
    (h : rowEncoding a = rowEncoding b) : a = b := by
  have hplain : ∀ row : Row, row.values.all Value.isPrinted = true →
      ∀ l ∈ (Value.integer row.rowid :: row.values).map encodeValue, ',' ∉ l := by
    intro row hrow l hl
    obtain ⟨value, hvalue, rfl⟩ := List.mem_map.mp hl
    rcases List.mem_cons.mp hvalue with rfl | hvalue
    · exact encodeValue_plain rfl
    · exact encodeValue_plain (List.all_eq_true.mp hrow value hvalue)
  simp only [rowEncoding, encodeOpsDumpRow, List.append_cancel_right_eq, List.append_cancel_left_eq] at h
  have hsplit := congrArg (List.splitOn ',') h
  rw [List.splitOn_intercalate _ (hplain a ha) (by simp), List.splitOn_intercalate _ (hplain b hb) (by simp)] at hsplit
  have hvalues := List.map_injective_iff.mpr (fun _ _ => encodeValue_inj) hsplit
  obtain ⟨hrowid, hvalues⟩ := List.cons.inj hvalues
  cases a
  cases b
  cases hrowid
  cases hvalues
  rfl
/-! ## Verification -/

/-- The rows are as many as the manifest lists and fold to its hash. -/
def Matches (digest : Digest) (rows : List Row) (table : DumpTable) : Prop :=
  rows.length = table.rows ∧ hashOf digest rows = table.hash

/-- The cursor stands behind the first rows of a table. -/
def At (digest : Digest) (rows : List Row) (table : String) (cursor : Cursor) : Prop :=
  ∃ read rest, rows = read ++ rest ∧ cursor = cursorIn digest table read

/-- Everything before the cursor matches; without a cursor, every table does. -/
def Stands (digest : Digest) (rows : String → List Row) (tables : List DumpTable) : Option Cursor → Prop
  | none => ∀ table ∈ tables, Matches digest (rows table.name) table
  | some cursor => ∃ done table rest, tables = done ++ table :: rest ∧ (∀ t ∈ done, Matches digest (rows t.name) t) ∧
      At digest (rows table.name) table.name cursor

theorem at_fresh (rows : List Row) (table : String) : At digest rows table (fresh digest table) := ⟨[], rows, rfl, rfl⟩

theorem readPage_at {table : String} {read rest : List Row} (h : db.rows table = read ++ rest) :
    readPage db table (lastRowid read) = rest.take pageRows :=
  page_at ⟨⟨table, db.rows table, db.ordered table⟩, read, rest, [], h⟩ pageRows

variable (digest) in
theorem fold_page (read page : List Row) :
    foldOpsTableHash digest (hashOf digest read) (page.map rowEncoding) = some (hashOf digest (read ++ page)) := by
  unfold foldOpsTableHash
  rw [if_pos (isSha_hashOf read)]
  simp only [hashOf, List.map_append, List.foldl_append]
  rfl

theorem lastRowid_page (read : List Row) {page : List Row} (h : page ≠ []) :
    (page.getLast?.map (·.rowid)).or (lastRowid read) = lastRowid (read ++ page) := by
  obtain ⟨last, hlast⟩ : ∃ last, page.getLast? = some last := ⟨page.getLast h, List.getLast?_eq_some_getLast h⟩
  simp [lastRowid, List.getLast?_append, hlast]

theorem Stands.after {rows : String → List Row} {tables : List DumpTable} {next : Option Cursor} (done : List DumpTable)
    (hdone : ∀ t ∈ done, Matches digest (rows t.name) t) (h : Stands digest rows tables next) :
    Stands digest rows (done ++ tables) next := by
  cases next with
  | none =>
    intro table htable
    rcases List.mem_append.mp htable with htable | htable
    · exact hdone table htable
    · exact h table htable
  | some cursor =>
    obtain ⟨before, table, rest, rfl, hbefore, hat⟩ := h
    refine ⟨done ++ before, table, rest, by simp, ?_, hat⟩
    intro t ht
    rcases List.mem_append.mp ht with ht | ht
    · exact hdone t ht
    · exact hbefore t ht

/-- What a read of the tables answers stands for them. -/
theorem verifyTables_stands {tables : List DumpTable} {current : Cursor} {budget : Nat} {finished finished' : List DumpTable}
    {next : Option Cursor} (hat : ∀ table rest, tables = table :: rest → At digest (db.rows table.name) table.name current)
    (h : verifyTables digest db tables current budget finished = some (.read finished' next)) :
    Stands digest db.rows tables next := by
  fun_induction verifyTables digest db tables current budget finished with
  | case1 current budget finished =>
    cases h
    exact fun _ ht => nomatch ht
  | case2 expected rest current finished =>
    cases h
    exact ⟨[], expected, rest, rfl, (fun _ ht => nomatch ht), hat expected rest rfl⟩
  | case3 => cases h
  | case4 => cases h
  | case5 => cases h
  | case6 expected rest current budget finished hbudget page hash hhash rows hover hshort hmatch ih =>
    obtain ⟨read, left, hrows, rfl⟩ := hat expected rest rfl
    have hpage : page = left.take pageRows := readPage_at hrows
    have hleft : left.take pageRows = left := by
      rw [hpage, List.length_take] at hshort
      exact List.take_of_length_le (by omega)
    have hall : Matches digest (db.rows expected.name) expected := by
      have hfold := fold_page digest read page
      rw [show (cursorIn digest expected.name read).hash = hashOf digest read from rfl] at hhash
      rw [hhash, Option.some.injEq] at hfold
      obtain ⟨hcount, hsame⟩ : rows = expected.rows ∧ hash = expected.hash := by
        constructor
        · by_contra hne
          exact hmatch (.inl hne)
        · by_contra hne
          exact hmatch (.inr hne)
      rw [hrows, ← hleft, ← hpage]
      refine ⟨?_, hfold.symm.trans hsame⟩
      rw [List.length_append, ← hcount]
      rfl
    refine Stands.after [expected] (by simpa using hall) (ih ?_ h)
    intro table later hlater
    rw [hlater]
    exact at_fresh _ _
  | case7 expected rest current budget finished hbudget page hash hhash rows hover hfull ih =>
    obtain ⟨read, left, hrows, rfl⟩ := hat expected rest rfl
    have hpage : page = left.take pageRows := readPage_at hrows
    have hne : page ≠ [] := by
      intro e
      rw [e] at hfull
      exact hfull (by decide)
    refine ih ?_ h
    intro table later hlater
    obtain ⟨rfl, rfl⟩ := List.cons.inj hlater
    refine ⟨read ++ page, left.drop pageRows, ?_, ?_⟩
    · rw [hrows, hpage, List.append_assoc, List.take_append_drop]
    · have hfold := fold_page digest read page
      rw [show (cursorIn digest expected.name read).hash = hashOf digest read from rfl] at hhash
      rw [hhash, Option.some.injEq] at hfold
      show (⟨expected.name, (page.getLast?.map (·.rowid)).or (lastRowid read), read.length + page.length, hash⟩ : Cursor) = _
      rw [lastRowid_page read hne, hfold, ← List.length_append]
      rfl

/-! ## What `verify` leaves -/

theorem importing_some {kv : Kv} :
    importing kv source = some marker ↔ kv.marker = some marker ∧ marker.begun = true ∧ marker.source = source := by
  simp [importing, Option.filter_eq_some_iff]

/-- The tables from the cursor's on. -/
theorem dropWhile_at {tables done rest : List DumpTable} {table : DumpTable} (hnodup : (tables.map (·.name)).Nodup)
    (h : tables = done ++ table :: rest) : tables.dropWhile (·.name ≠ table.name) = table :: rest := by
  subst h
  have hdone : ∀ t ∈ done, decide (t.name ≠ table.name) = true := by
    intro t ht
    rw [List.map_append, List.nodup_append] at hnodup
    simpa using hnodup.2.2 t.name (List.mem_map_of_mem ht) table.name (by simp)
  rw [List.dropWhile_append_of_pos hdone]
  simp

theorem verifyFrom_stands {tables finished : List DumpTable} {cursor next : Option Cursor}
    (hnodup : (tables.map (·.name)).Nodup) (hcursor : cursor ≠ none → Stands digest db.rows tables cursor)
    (h : verifyFrom digest db tables cursor = some (.read finished next)) : Stands digest db.rows tables next := by
  unfold verifyFrom at h
  cases cursor with
  | none =>
    cases tables with
    | nil =>
      cases h
      exact fun _ ht => nomatch ht
    | cons table rest =>
      refine verifyTables_stands (fun t later e => ?_) h
      obtain ⟨rfl, rfl⟩ := List.cons.inj e
      exact at_fresh _ _
  | some cursor =>
    obtain ⟨done, table, rest, htables, hdone, hat⟩ := hcursor (by simp)
    obtain ⟨read, left, hrows, rfl⟩ := hat
    have hleft : tables.dropWhile (·.name ≠ (cursorIn digest table.name read).table) = table :: rest :=
      dropWhile_at hnodup htables
    simp only [hleft] at h
    rw [htables]
    refine Stands.after done hdone (verifyTables_stands (fun t later e => ?_) h)
    obtain ⟨rfl, rfl⟩ := List.cons.inj e
    exact ⟨read, left, hrows, rfl⟩

/-- `verify` changes nothing but the marker's verification, which it leaves standing. -/
theorem verify_cases (cursor : Option Cursor) {object : Object} (hmarker : importing object.kv source = some marker)
    (hstands : ∀ v, marker.verified = some v → Stands digest object.db.rows manifest.tables v.next) :
    (verify digest source manifest cursor object).1 = object ∨
      ∃ verified, (verify digest source manifest cursor object).1 = object.withMarker { marker with verified } ∧
        (∀ v, verified = some v → Stands digest object.db.rows manifest.tables v.next) ∧
        (verified ≠ none → cursor = none ∨ marker.verified ≠ none) := by
  have reset : ∃ verified, object.withMarker { marker with verified := none } = object.withMarker { marker with verified } ∧
      (∀ v, verified = some v → Stands digest object.db.rows manifest.tables v.next) ∧
      (verified ≠ none → cursor = none ∨ marker.verified ≠ none) :=
    ⟨none, rfl, (fun _ e => nomatch e), fun e => absurd rfl e⟩
  unfold verify
  rw [hmarker]
  dsimp only
  split
  · exact .inl rfl
  split
  · exact .inr reset
  next hnext =>
  have hcursor : cursor ≠ none → ∃ v, marker.verified = some v ∧ v.next = cursor := by
    intro hne
    have hsame : marker.verified.bind (·.next) = cursor := by
      by_contra e
      exact hnext ⟨hne, e⟩
    cases hverified : marker.verified with
    | none =>
      rw [hverified] at hsame
      exact absurd hsame.symm hne
    | some v => exact ⟨v, rfl, by simpa [hverified] using hsame⟩
  split
  · exact .inl rfl
  · exact .inr reset
  · next finished next hread =>
    refine .inr ⟨_, rfl, ?_, ?_⟩
    · intro v hv
      cases hv
      refine verifyFrom_stands manifest.distinct (fun hne => ?_) hread
      obtain ⟨v, hv, hnext⟩ := hcursor hne
      exact hnext ▸ hstands v hv
    · intro _
      by_cases hne : cursor = none
      · exact .inl hne
      · obtain ⟨v, hv, _⟩ := hcursor hne
        exact .inr (by simp [hv])

theorem verify_completed (source : Source) (manifest : Manifest) (cursor : Option Cursor) (object : Object) :
    (verify digest source manifest cursor object).1.kv.completed = object.kv.completed := by
  unfold verify
  repeat' split
  all_goals rfl

/-! ## What a step can do -/

/-- The object has begun no import, or one of this source that is not cleared yet. -/
def Unbegun (object : Object) (source : Source) : Prop :=
  (object.kv.marker = none ∧ holdsTables object.db = false) ∨
    ∃ marker, object.kv.marker = some marker ∧ marker.source = source ∧ marker.begun = false

variable (digest runtime bucket) in
/-- Every change a step makes to the object, with its answer. -/
inductive Moves (o : Object) : Request → Object → Answer → Prop
  | stays {request : Request} {answer : Answer} : (∀ source, answer ≠ .complete source) → answer ≠ .discarded →
      (∀ source part ack, request = .part source part → answer = .part ack → o.kv.loadedPart part = some ack) →
      (∀ source part ack, request = .link source part → answer = .link ack → o.kv.linkedPart part = some ack) →
      Moves o request o answer
  | again {source : Source} : importing o.kv source = none → o.kv.completed source = true →
      Moves o (.complete source) o (.complete source)
  | prepares {source : Source} {migrated : Except Database Database} {o' : Object} {answer : Answer} : Unbegun o source →
      (o'.kv = o.kv ∧ o.kv.marker ≠ none ∨ o'.kv = { o.kv with marker := some ⟨source, false, 0, none⟩ }) →
      (∀ source, answer ≠ .complete source) → answer ≠ .discarded → Moves o (.begin_ source migrated) o' answer
  | begins {source : Source} {migrated : Except Database Database} {o' : Object} {parts : Nat} : Unbegun o source →
      o'.kv = { o.kv with marker := some ⟨source, true, 0, none⟩ } → Moves o (.begin_ source migrated) o' (.begun parts)
  | loads {source : Source} {part deferred : Nat} {marker : Marker} {backup : Backup} {plan : List TablePlan} {lines : List Line}
      {db : Database} : importing o.kv source = some marker → bucket source = some backup →
      currentPlan runtime o.db backup.manifest = .ok plan → o.kv.loadedPart part = none →
      readPart runtime backup plan part = .ok lines → (lines = [] → deferred = 0) →
      Moves o (.part source part)
        ⟨db, { o.kv with
          loadedPart := Function.update o.kv.loadedPart part (some ⟨part, lines.length, deferred⟩)
          marker := some { marker with loaded := marker.loaded + 1, verified := none } }⟩
        (.part ⟨part, lines.length, deferred⟩)
  | links {source : Source} {part : Nat} {marker : Marker} {backup : Backup} {plan : List TablePlan} {lines : List Line}
      {ack : LinkAck} {db : Database} : importing o.kv source = some marker → bucket source = some backup →
      o.kv.linkedPart part = none → readPart runtime backup plan part = .ok lines →
      Moves o (.link source part)
        ⟨db, { o.kv with
          linkedPart := Function.update o.kv.linkedPart part (some ack)
          marker := some { marker with verified := none } }⟩
        (.link ack)
  | verifies {source : Source} {cursor : Option Cursor} {marker : Marker} {backup : Backup} {answer : Answer} :
      importing o.kv source = some marker → bucket source = some backup →
      (∀ s, answer ≠ .complete s) → answer ≠ .discarded →
      Moves o (.verify source cursor) (verify digest source backup.manifest cursor o).1 answer
  | creates {source : Source} {db : Database} {answer : Answer} : importing o.kv source ≠ none → db.rows = o.db.rows →
      (∀ s, answer ≠ .complete s) → answer ≠ .discarded → Moves o (.complete source) { o with db } answer
  | completes {source : Source} {marker : Marker} {backup : Backup} {verified : Verification} {db : Database} :
      importing o.kv source = some marker → bucket source = some backup →
      (∀ part ∈ backup.manifest.parts, waits o.kv part = false) → marker.verified = some verified → verified.next = none →
      db.rows = o.db.rows → sameDdl (readDdl db) backup.manifest.ddl = true →
      Moves o (.complete source) ⟨db, cleared o.kv backup.manifest source⟩ (.complete source)
  | wipes : o.kv.marker ≠ none → Moves o .discard wiped .discarded

section Steps

variable {o : Object}

variable {request : Request} {plan : List TablePlan} {backup : Backup}

theorem stays_refused (refusal : Refusal) : Moves digest runtime bucket o request o (.refused refusal) :=
  .stays (by simp) (by simp) (by simp) (by simp)

theorem stays_failed : Moves digest runtime bucket o request o .failed :=
  .stays (by simp) (by simp) (by simp) (by simp)

theorem beginCleared_moves {migrated : Except Database Database} {marked : Object} (h : Unbegun o source)
    (hkv : marked.kv = o.kv ∧ o.kv.marker ≠ none ∨ marked.kv = { o.kv with marker := some ⟨source, false, 0, none⟩ }) :
    Moves digest runtime bucket o (.begin_ source migrated) (beginCleared runtime source manifest marked).1
      (beginCleared runtime source manifest marked).2 := by
  unfold beginCleared
  split
  · exact .prepares h hkv (by simp [refused]) (by simp [refused])
  split
  · exact .prepares h hkv (by simp) (by simp)
  split
  · exact .prepares h hkv (by simp) (by simp)
  · refine .begins h ?_
    rcases hkv with ⟨hkv, _⟩ | hkv
    · simp [Object.withMarker, hkv]
    · simp [Object.withMarker, hkv]

theorem beginMigrated_moves {migrated : Except Database Database} (h : Unbegun o source) :
    Moves digest runtime bucket o (.begin_ source migrated)
      (beginMigrated runtime digest release migrated source manifest o).1
      (beginMigrated runtime digest release migrated source manifest o).2 := by
  unfold beginMigrated
  split
  · exact stays_refused _
  dsimp only
  have hkv : ∀ db, ({ (if o.kv.marker.isNone then o.withMarker ⟨source, false, 0, none⟩ else o) with db } : Object).kv = o.kv
      ∧ o.kv.marker ≠ none ∨
      ({ (if o.kv.marker.isNone then o.withMarker ⟨source, false, 0, none⟩ else o) with db } : Object).kv =
        { o.kv with marker := some ⟨source, false, 0, none⟩ } := by
    intro db
    cases hmarker : o.kv.marker with
    | none => exact .inr (by simp [Object.withMarker])
    | some m => exact .inl (by simp)
  split
  · exact beginCleared_moves h (hkv (if o.kv.marker.isNone then o.withMarker ⟨source, false, 0, none⟩ else o).db)
  split
  · exact .prepares h (hkv _) (by simp) (by simp)
  · exact beginCleared_moves h (hkv _)

theorem begin_moves (source : Source) (migrated : Except Database Database) :
    Moves digest runtime bucket o (.begin_ source migrated) (begin_ runtime digest bucket release source migrated o).1
      (begin_ runtime digest bucket release source migrated o).2 := by
  unfold begin_
  split
  · exact stays_refused _
  split
  · exact stays_refused _
  split
  · next marker hmarker =>
    split
    · exact stays_refused _
    · next hsource =>
      split
      · exact .stays (by simp) (by simp) (by simp) (by simp)
      · next hbegun =>
        exact beginMigrated_moves (.inr ⟨marker, hmarker, by simpa using hsource, by simpa using hbegun⟩)
  · next hmarker =>
    split
    · exact stays_refused _
    · next htables => exact beginMigrated_moves (.inl ⟨hmarker, by simpa using htables⟩)

theorem insertRows_nil {rows : List (List Statement × Bool)} (h : insertRows plan [] = some rows) : rows = [] := by
  simpa [insertRows] using h.symm

theorem loadPart_moves (part : Nat) (hmarker : importing o.kv source = some marker) (hbackup : bucket source = some backup)
    (hplan : currentPlan runtime o.db backup.manifest = .ok plan) :
    Moves digest runtime bucket o (.part source part) (loadPart runtime source backup plan part o).1
      (loadPart runtime source backup plan part o).2 := by
  unfold loadPart
  split
  · next recorded hrecorded =>
    refine .stays (by simp) (by simp) (fun source' part' ack e e' => ?_) (by simp)
    cases e
    cases e'
    exact hrecorded
  next hrecorded =>
  split
  · exact stays_refused _
  next lines hlines =>
  rw [hmarker]
  dsimp only
  split
  · exact stays_failed
  next rows hrows =>
  split
  · exact stays_failed
  · refine .loads hmarker hbackup hplan hrecorded hlines (fun e => ?_)
    subst e
    rw [insertRows_nil hrows]
    rfl

theorem linkPart_moves (part : Nat) (hmarker : importing o.kv source = some marker) (hbackup : bucket source = some backup) :
    Moves digest runtime bucket o (.link source part) (linkPart runtime source backup plan part o).1
      (linkPart runtime source backup plan part o).2 := by
  unfold linkPart
  split
  · next recorded hrecorded =>
    refine .stays (by simp) (by simp) (by simp) (fun source' part' ack e e' => ?_)
    cases e
    cases e'
    exact hrecorded
  next hrecorded =>
  rw [hmarker]
  dsimp only
  split
  · exact stays_refused _
  split
  · exact stays_refused _
  next lines hlines =>
  split
  · exact stays_failed
  split
  · exact stays_failed
  · exact .links hmarker hbackup hrecorded hlines

theorem execAll_create {db' : Database} {sqls : List SchemaEntry}
    (h : execAll runtime db (sqls.map fun entry => .createTrigger entry.sql) = some db') : db'.rows = db.rows := by
  induction sqls generalizing db with
  | nil =>
    cases h
    rfl
  | cons entry rest ih =>
    simp only [List.map_cons, execAll] at h
    split at h
    · next db1 hexec => rw [ih h, runtime.create_rows _ _ _ hexec]
    · cases h

theorem complete_moves (hmarker : importing o.kv source = some marker) (hbackup : bucket source = some backup) :
    Moves digest runtime bucket o (.complete source) (complete runtime source backup.manifest o).1
      (complete runtime source backup.manifest o).2 := by
  have himport : importing o.kv source ≠ none := by simp [hmarker]
  unfold complete
  rw [hmarker]
  dsimp only
  split
  · exact stays_refused _
  next hparts =>
  split
  · exact stays_refused _
  next verified hverified =>
  split
  · exact stays_refused _
  next hnext =>
  split
  · exact stays_failed
  next db hdb =>
  have hrows := execAll_create hdb
  split
  · exact .creates himport hrows (by simp [refused]) (by simp [refused])
  split
  · exact .creates himport hrows (by simp [refused]) (by simp [refused])
  next hddl =>
  refine .completes hmarker hbackup ?_ hverified (by simpa using hnext) hrows (by simpa using hddl)
  intro part hpart
  by_contra hwaits
  exact hparts (.inr (List.any_eq_true.mpr ⟨part, hpart, by simpa using hwaits⟩))

theorem importStep_moves {step : Backup → Object × Answer}
    (h : ∀ marker backup, importing o.kv source = some marker → bucket source = some backup →
      Moves digest runtime bucket o request (step backup).1 (step backup).2) :
    Moves digest runtime bucket o request (importStep bucket source o step).1 (importStep bucket source o step).2 := by
  unfold importStep
  split
  · exact stays_refused _
  next marker hmarker =>
  split
  · exact stays_refused _
  · next backup hbackup => exact h marker backup hmarker hbackup

theorem planned_moves {step : List TablePlan → Object × Answer}
    (h : ∀ plan, currentPlan runtime o.db backup.manifest = .ok plan →
      Moves digest runtime bucket o request (step plan).1 (step plan).2) :
    Moves digest runtime bucket o request (planned runtime backup o step).1 (planned runtime backup o step).2 := by
  unfold planned
  split
  · exact stays_refused _
  · next plan hplan => exact h plan hplan

theorem verify_answer {cursor : Option Cursor} :
    (∀ s, (verify digest source manifest cursor o).2 ≠ .complete s) ∧
      (verify digest source manifest cursor o).2 ≠ .discarded := by
  unfold verify
  repeat' split
  all_goals simp [refused]

theorem step_moves (o : Object) (request : Request) :
    Moves digest runtime bucket o request (admittedStep runtime digest bucket release o request).1
      (admittedStep runtime digest bucket release o request).2 := by
  cases request with
  | discard =>
    simp only [admittedStep, discard]
    split
    · exact stays_refused _
    · next hmarker => exact .wipes (by simpa using hmarker)
  | begin_ source migrated => exact begin_moves source migrated
  | part source part =>
    refine importStep_moves (fun marker backup hmarker hbackup => planned_moves (fun plan hplan => ?_))
    exact loadPart_moves part hmarker hbackup hplan
  | link source part =>
    exact importStep_moves (fun marker backup hmarker hbackup =>
      planned_moves (fun plan _ => linkPart_moves part hmarker hbackup))
  | verify source cursor =>
    refine importStep_moves (fun marker backup hmarker hbackup => planned_moves (fun plan _ => ?_))
    exact .verifies hmarker hbackup (verify_answer).1 (verify_answer).2
  | complete source =>
    simp only [admittedStep]
    split
    · next hnone =>
      split
      · next hcompleted => exact .again hnone hcompleted
      · exact stays_refused _
    · exact importStep_moves (fun marker backup hmarker hbackup => complete_moves hmarker hbackup)

end Steps

end Fabrika.App.Import
