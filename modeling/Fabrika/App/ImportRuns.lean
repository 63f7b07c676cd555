/-
  Fabrika.App.ImportRuns — runs of import steps: what was inserted and linked since the object was
  last wiped, and what holds when an import completes (see `Fabrika.App.Import`).

  The receipts in KV storage are held to the log of the run: a part with a receipt was loaded in
  this import, and a part whose rows were inserted keeps its receipt until the import completes or
  is discarded. Behind a completed import the object holds the backup's tables, so `begin` takes it
  no more and its receipt stays — unless the backup has no table.
-/

import Fabrika.App.ImportProofs
import Fabrika.Lib.Keeps

namespace Fabrika.App.Import

open Fabrika.AuthCore.OpsDump Fabrika.App.Export

/-! ## The log of a run -/

/-- A part whose transaction committed: the rows it inserted, and how many of them wait for a link. -/
structure Load where
  source : Source
  part : Nat
  lines : List Line
  deferred : Nat

structure World where
  object : Object
  /-- The parts loaded since the object was last wiped, oldest first. -/
  loads : List Load
  /-- The link passes since then. -/
  links : List (Source × Nat)

section Log

variable (runtime : Runtime) (digest : Digest) (bucket : Bucket) (release : List Bundle)

/-- The lines a part holds under the object's plan. -/
def partLines (object : Object) (source : Source) (part : Nat) : List Line :=
  match bucket source with
  | none => []
  | some backup =>
    match currentPlan runtime object.db backup.manifest with
    | .error _ => []
    | .ok plan =>
      match readPart runtime backup plan part with
      | .error _ => []
      | .ok lines => lines

/-- A step inserts rows where it answers a part that had no receipt. -/
def loadOf (object : Object) (request : Request) (answer : Answer) : List Load :=
  match request, answer with
  | .part source part, .part ack =>
    if (object.kv.loadedPart part).isSome then [] else [⟨source, part, partLines runtime bucket object source part, ack.deferred⟩]
  | _, _ => []

def linkOf (object : Object) (request : Request) (answer : Answer) : List (Source × Nat) :=
  match request, answer with
  | .link source part, .link _ => if (object.kv.linkedPart part).isSome then [] else [(source, part)]
  | _, _ => []

def World.answer (w : World) (request : Request) : Answer := (admittedStep runtime digest bucket release w.object request).2

/-- The log behind a step that left this object with this answer. -/
def World.logged (w : World) (request : Request) (object : Object) (answer : Answer) : World :=
  if answer = .discarded then ⟨object, [], []⟩
  else ⟨object, w.loads ++ loadOf runtime bucket w.object request answer, w.links ++ linkOf w.object request answer⟩

def World.step (w : World) (request : Request) : World :=
  w.logged runtime bucket request (admittedStep runtime digest bucket release w.object request).1
    (w.answer runtime digest bucket release request)

def World.after (w : World) (requests : List Request) : World := requests.foldl (World.step runtime digest bucket release) w

def World.of (object : Object) : World := ⟨object, [], []⟩

/-- No import was begun on the object. -/
structure Untouched (object : Object) : Prop where
  marker : object.kv.marker = none
  loadedPart : ∀ part, object.kv.loadedPart part = none
  linkedPart : ∀ part, object.kv.linkedPart part = none
  completed : ∀ source, object.kv.completed source = false

/-- A step that writes rows: a part or a link pass without a receipt yet. -/
def World.writes (w : World) (request : Request) : Prop :=
  loadOf runtime bucket w.object request (w.answer runtime digest bucket release request) ≠ [] ∨
    linkOf w.object request (w.answer runtime digest bucket release request) ≠ []

/-- `complete` clears the marker. -/
def World.clears (w : World) (source : Source) : Prop :=
  w.object.kv.marker ≠ none ∧ (w.step runtime digest bucket release (.complete source)).object.kv.marker = none

/-- A text that a table's hash is computed over. -/
def Hashed (rows : List Row) (text : Text) : Prop :=
  ∃ read row rest, rows = read ++ row :: rest ∧ text = (hashOf digest read).toList ++ '\n' :: rowEncoding row

/-- SHA-256 tells the texts of the two tables apart. -/
def NoCollision (a b : List Row) : Prop :=
  ∀ x y, Hashed digest a x → Hashed digest b y → digest.sha256Hex x = digest.sha256Hex y → x = y

/-- Every table is what the manifest lists, and so is the schema. -/
structure HoldsBackup (db : Database) (manifest : Manifest) : Prop where
  counted : ∀ table ∈ manifest.tables, Matches digest (db.rows table.name) table
  /-- Rows of the same count and hash are the same rows. -/
  exact : ∀ table ∈ manifest.tables, ∀ rows : List Row, (∀ row ∈ rows, row.values.all Value.isPrinted = true) →
    Matches digest rows table → NoCollision digest (db.rows table.name) rows → db.rows table.name = rows
  ddl : (readDdl db).Perm manifest.ddl

/-- What holds of an object behind a run of steps, and of the `complete` that follows. -/
structure Exact (start : Object) (requests : List Request) : Prop where
  /-- Each part's rows were inserted at most once since the last wipe. -/
  once : ((((World.of start).after runtime digest bucket release requests).loads.filter fun load => !load.lines.isEmpty).map
    fun load => (load.source, load.part)).Nodup
  /-- `complete` clears the marker on exactly the backup, with every part loaded and every deferred key linked. -/
  backup : ∀ source, ((World.of start).after runtime digest bucket release requests).clears runtime digest bucket release source →
    ∃ backup, bucket source = some backup ∧
      HoldsBackup digest
        (((World.of start).after runtime digest bucket release requests).step runtime digest bucket release
          (.complete source)).object.db
        backup.manifest ∧
      (∀ part ∈ backup.manifest.parts, ∃ load ∈ ((World.of start).after runtime digest bucket release requests).loads,
        load.source = source ∧ load.part = part.part) ∧
      ∀ load ∈ ((World.of start).after runtime digest bucket release requests).loads, load.source = source → 0 < load.deferred →
        (source, load.part) ∈ ((World.of start).after runtime digest bucket release requests).links
  /-- Rows written after a verification began need another one from the start. -/
  verified : ∀ before request between source, requests = before ++ request :: between →
    ((World.of start).after runtime digest bucket release before).writes runtime digest bucket release request →
    ((World.of start).after runtime digest bucket release requests).clears runtime digest bucket release source →
    ∃ named, Request.verify named none ∈ between
  /-- A retried `complete` answers what it answered first. -/
  retried : ∀ before source between, requests = before ++ .complete source :: between →
    ((World.of start).after runtime digest bucket release before).answer runtime digest bucket release (.complete source) =
      .complete source →
    ((World.of start).after runtime digest bucket release requests).answer runtime digest bucket release (.complete source) =
      .complete source

end Log

/-! ## The receipts and the log -/

variable {runtime : Runtime} {digest : Digest} {bucket : Bucket} {release : List Bundle} {w : World}

/-- An import of the marker's source is under way and the backup lists this part. -/
def Under (bucket : Bucket) (object : Object) (source : Source) (part : Nat) : Prop :=
  ∃ marker backup, object.kv.marker = some marker ∧ marker.begun = true ∧ marker.source = source ∧
    bucket source = some backup ∧ part ∈ backup.manifest.parts.map (·.part)

/-- A load that inserted rows: its receipt is there, or the import completed and the object holds tables. -/
def Kept (bucket : Bucket) (object : Object) (load : Load) : Prop :=
  (Under bucket object load.source load.part ∧ (∀ backup, bucket load.source = some backup → backup.manifest.tables ≠ []) ∧
      ∃ ack, object.kv.loadedPart load.part = some ack ∧ ack.deferred = load.deferred) ∨
    (object.kv.marker = none ∧ holdsTables object.db = true)

variable (digest bucket) in
structure Inv (w : World) : Prop where
  stands : ∀ marker v, w.object.kv.marker = some marker → marker.verified = some v → ∃ backup,
    bucket marker.source = some backup ∧ Stands digest w.object.db.rows backup.manifest.tables v.next
  unbegun : ∀ marker, w.object.kv.marker = some marker → marker.begun = false → marker.verified = none
  received : ∀ part ack, w.object.kv.loadedPart part = some ack → ack.part = part ∧ ∃ load ∈ w.loads,
    load.part = part ∧ Under bucket w.object load.source part
  linked : ∀ part ack, w.object.kv.linkedPart part = some ack → ∃ source, (source, part) ∈ w.links ∧
    Under bucket w.object source part
  kept : ∀ load ∈ w.loads, load.lines ≠ [] → Kept bucket w.object load
  waiting : ∀ load ∈ w.loads, load.lines = [] → load.deferred = 0
  once : ((w.loads.filter fun load => !load.lines.isEmpty).map fun load => (load.source, load.part)).Nodup

theorem inv_of {start : Object} (h : Untouched start) : Inv digest bucket (World.of start) where
  stands marker v e := by simp [World.of, h.marker] at e
  unbegun marker e := by simp [World.of, h.marker] at e
  received part ack e := by simp [World.of, h.loadedPart] at e
  linked part ack e := by simp [World.of, h.linkedPart] at e
  kept load hload := nomatch hload
  waiting load hload := nomatch hload
  once := .nil

variable {o' : Object} {backup : Backup} {lines : List Line} {part : Nat} {plan : List TablePlan} {db : Database}
variable {source : Source} {answer : Answer} {request : Request} {marker : Marker}

/-- Where only the marker's verification and the rows it stands for may change. -/
theorem Inv.reverified (h : Inv digest bucket w)
    (hparts : o'.kv.loadedPart = w.object.kv.loadedPart ∧ o'.kv.linkedPart = w.object.kv.linkedPart)
    (hunder : ∀ source part, Under bucket w.object source part → Under bucket o' source part)
    (hdone : w.object.kv.marker = none → o'.kv.marker = none ∧ holdsTables o'.db = holdsTables w.object.db)
    (hstands : ∀ marker v, o'.kv.marker = some marker → marker.verified = some v → ∃ backup,
      bucket marker.source = some backup ∧ Stands digest o'.db.rows backup.manifest.tables v.next)
    (hunbegun : ∀ marker, o'.kv.marker = some marker → marker.begun = false → marker.verified = none) :
    Inv digest bucket ⟨o', w.loads, w.links⟩ where
  stands := hstands
  unbegun := hunbegun
  received part ack e := by
    obtain ⟨hack, load, hload, hpart, hu⟩ := h.received part ack (hparts.1 ▸ e)
    exact ⟨hack, load, hload, hpart, hunder _ _ hu⟩
  linked part ack e := by
    obtain ⟨source, hlink, hu⟩ := h.linked part ack (hparts.2 ▸ e)
    exact ⟨source, hlink, hunder _ _ hu⟩
  kept load hload hlines := by
    rcases h.kept load hload hlines with ⟨hu, htables, hack⟩ | ⟨hmarker, htables⟩
    · exact .inl ⟨hunder _ _ hu, htables, hparts.1 ▸ hack⟩
    · obtain ⟨hmarker', hholds⟩ := hdone hmarker
      exact .inr ⟨hmarker', hholds ▸ htables⟩
  waiting := h.waiting
  once := h.once

/-! ## One step -/

theorem readPart_listed (h : readPart runtime backup plan part = .ok lines) : part ∈ backup.manifest.parts.map (·.part) := by
  unfold readPart at h
  split at h
  · cases h
  · next described hdescribed =>
    split at hdescribed
    · cases hdescribed
    · next hpos =>
      obtain ⟨hlt, _⟩ := List.getElem?_eq_some_iff.mp hdescribed
      rw [backup.manifest.numbered, List.mem_map]
      exact ⟨part - 1, List.mem_range.mpr hlt, by omega⟩

/-- A line names a table of the plan. -/
theorem readPart_plan (h : readPart runtime backup plan part = .ok lines) (hlines : lines ≠ []) : plan ≠ [] := by
  obtain ⟨line, hline⟩ := List.exists_mem_of_ne_nil lines hlines
  unfold readPart at h
  split at h
  · cases h
  dsimp only at h
  split at h
  · cases h
  split at h
  · cases h
  split at h
  · cases h
  obtain ⟨encoded, _, hencoded⟩ := Lib.except_mapM_mem h line hline
  rintro rfl
  split at hencoded
  · cases hencoded
  · cases hencoded

theorem currentPlan_tables {manifest : Manifest} (h : currentPlan runtime db manifest = .ok plan) :
    plan.map (·.name) = manifest.tables.map (·.name) := by
  unfold currentPlan at h
  split at h
  · cases h
  · split at h
    · next hsame =>
      cases h
      exact hsame
    · cases h

theorem Under.of_marker {o : Object} {m m' : Marker} (h : Under bucket o source part) (hm : o.kv.marker = some m)
    (hm' : o'.kv.marker = some m') (hsame : m'.begun = m.begun ∧ m'.source = m.source) : Under bucket o' source part := by
  obtain ⟨marker, backup, hmarker, hbegun, hsource, hbackup, hpart⟩ := h
  cases hm.symm.trans hmarker
  exact ⟨m', backup, hm', hsame.1.trans hbegun, hsame.2.trans hsource, hbackup, hpart⟩

/-- Before an import is begun there is no receipt, and no row was inserted since the last wipe. -/
theorem Inv.nothing (h : Inv digest bucket w) (hu : Unbegun w.object source) :
    (∀ part, w.object.kv.loadedPart part = none) ∧ (∀ part, w.object.kv.linkedPart part = none) ∧
      ∀ load ∈ w.loads, load.lines = [] := by
  have hnot : ∀ source part, ¬Under bucket w.object source part := by
    rintro source' part ⟨marker, backup, hmarker, hbegun, -⟩
    rcases hu with ⟨hnone, -⟩ | ⟨marker', hmarker', -, hbegun'⟩
    · cases hnone.symm.trans hmarker
    · cases hmarker'.symm.trans hmarker
      cases hbegun'.symm.trans hbegun
  refine ⟨fun part => ?_, fun part => ?_, fun load hload => ?_⟩
  · cases hack : w.object.kv.loadedPart part with
    | none => rfl
    | some ack =>
      obtain ⟨-, load, -, -, hunder⟩ := h.received part ack hack
      exact absurd hunder (hnot _ _)
  · cases hack : w.object.kv.linkedPart part with
    | none => rfl
    | some ack =>
      obtain ⟨source', -, hunder⟩ := h.linked part ack hack
      exact absurd hunder (hnot _ _)
  · by_contra hlines
    rcases h.kept load hload hlines with ⟨hunder, -⟩ | ⟨hmarker, htables⟩
    · exact hnot _ _ hunder
    · rcases hu with ⟨-, hnone⟩ | ⟨marker', hmarker', -⟩
      · cases hnone.symm.trans htables
      · cases hmarker'.symm.trans hmarker

/-- `begin` on such an object, whatever it leaves of the database. -/
theorem inv_begun (h : Inv digest bucket w) (hu : Unbegun w.object source)
    (hparts : o'.kv.loadedPart = w.object.kv.loadedPart ∧ o'.kv.linkedPart = w.object.kv.linkedPart)
    (hverified : ∀ marker, o'.kv.marker = some marker → marker.verified = none) : Inv digest bucket ⟨o', w.loads, w.links⟩ := by
  obtain ⟨hloaded, hlinked, hlines⟩ := h.nothing hu
  exact
    { stands := fun marker v hm hv => by simp [hverified marker hm] at hv
      unbegun := fun marker hm _ => hverified marker hm
      received := fun part ack hack => by simp [hparts.1, hloaded] at hack
      linked := fun part ack hack => by simp [hparts.2, hlinked] at hack
      kept := fun load hload hne => absurd (hlines load hload) hne
      waiting := h.waiting
      once := h.once }

theorem holdsTables_of_ddl {manifest : Manifest} (h : sameDdl (readDdl db) manifest.ddl = true) (htables : manifest.tables ≠ []) :
    holdsTables db = true := by
  obtain ⟨table, htable⟩ := List.exists_mem_of_ne_nil _ htables
  have hname : table.name ∈ (manifest.ddl.filter fun entry => entry.type = .table).map (·.name) :=
    manifest.declared.mem_iff.mpr (List.mem_map_of_mem htable)
  obtain ⟨entry, hentry, -⟩ := List.mem_map.mp hname
  obtain ⟨hentry, htype⟩ := List.mem_filter.mp hentry
  have hread : entry ∈ readDdl db := (List.isPerm_iff.mp h).mem_iff.mpr hentry
  obtain ⟨row, hrow, hsome⟩ := List.mem_filterMap.mp hread
  split at hsome
  · cases hsome
  · split at hsome
    · next hdumped =>
      cases hsome
      simp only [dumped, Bool.and_eq_true] at hdumped
      refine List.any_eq_true.mpr ⟨row, hrow, ?_⟩
      rw [hdumped.1.1, Bool.and_true]
      exact htype
    · cases hsome

theorem logged_same (hanswer : answer ≠ .discarded) (hload : loadOf runtime bucket w.object request answer = [])
    (hlink : linkOf w.object request answer = []) : w.logged runtime bucket request o' answer = ⟨o', w.loads, w.links⟩ := by
  simp [World.logged, hanswer, hload, hlink]

theorem loadOf_stays
    (h : ∀ source part ack, request = .part source part → answer = .part ack → w.object.kv.loadedPart part = some ack) :
    loadOf runtime bucket w.object request answer = [] := by
  unfold loadOf
  split
  · next source part ack => simp [h source part ack rfl rfl]
  · rfl

theorem linkOf_stays
    (h : ∀ source part ack, request = .link source part → answer = .link ack → w.object.kv.linkedPart part = some ack) :
    linkOf w.object request answer = [] := by
  unfold linkOf
  split
  · next source part ack => simp [h source part ack rfl rfl]
  · rfl

theorem inv_load {deferred : Nat} (h : Inv digest bucket w) (himport : importing w.object.kv source = some marker)
    (hbackup : bucket source = some backup) (hplan : currentPlan runtime w.object.db backup.manifest = .ok plan)
    (hnone : w.object.kv.loadedPart part = none) (hlines : readPart runtime backup plan part = .ok lines)
    (hdeferred : lines = [] → deferred = 0) :
    Inv digest bucket
      ⟨⟨db, { w.object.kv with
          loadedPart := Function.update w.object.kv.loadedPart part (some ⟨part, lines.length, deferred⟩)
          marker := some { marker with loaded := marker.loaded + 1, verified := none } }⟩,
        w.loads ++ [⟨source, part, lines, deferred⟩], w.links⟩ := by
  obtain ⟨hmarker, hbegun, hsource⟩ := importing_some.mp himport
  have hlisted := readPart_listed hlines
  have hunder : ∀ {o' : Object} {m' : Marker} {s : Source} {n : Nat}, o'.kv.marker = some m' → m'.begun = marker.begun ∧
      m'.source = marker.source → Under bucket w.object s n → Under bucket o' s n :=
    fun hm' hsame hu => hu.of_marker hmarker hm' hsame
  have htables : lines ≠ [] → backup.manifest.tables ≠ [] := by
    intro hne e
    have hnames := currentPlan_tables hplan
    rw [e] at hnames
    exact readPart_plan hlines hne (by simpa using hnames)
  constructor
  · intro m v hm hv
    cases hm
    cases hv
  · intro m hm _
    cases hm
    rfl
  · intro n ack hack
    dsimp only at hack
    by_cases hn : n = part
    · subst hn
      rw [Function.update_self] at hack
      cases hack
      refine ⟨rfl, ⟨source, n, lines, deferred⟩, by simp, rfl, ?_⟩
      exact ⟨_, backup, rfl, hbegun, hsource, hbackup, hlisted⟩
    · rw [Function.update_of_ne hn] at hack
      obtain ⟨hpart, load, hload, hl, hu⟩ := h.received n ack hack
      exact ⟨hpart, load, by simp [hload], hl, hunder rfl ⟨rfl, rfl⟩ hu⟩
  · intro n ack hack
    obtain ⟨s, hs, hu⟩ := h.linked n ack hack
    exact ⟨s, hs, hunder rfl ⟨rfl, rfl⟩ hu⟩
  · intro load hload hne
    rcases List.mem_append.mp hload with hload | hload
    · rcases h.kept load hload hne with ⟨hu, ht, ack, hack, hd⟩ | ⟨hnomarker, -⟩
      · refine .inl ⟨hunder rfl ⟨rfl, rfl⟩ hu, ht, ack, ?_, hd⟩
        have hn : load.part ≠ part := by
          intro e
          rw [e, hnone] at hack
          cases hack
        dsimp only
        rw [Function.update_of_ne hn]
        exact hack
      · cases hnomarker.symm.trans hmarker
    · obtain rfl := List.mem_singleton.mp hload
      refine .inl ⟨⟨_, backup, rfl, hbegun, hsource, hbackup, hlisted⟩, fun b hb => ?_, _, Function.update_self _ _ _, rfl⟩
      cases hbackup.symm.trans hb
      exact htables hne
  · intro load hload hempty
    rcases List.mem_append.mp hload with hload | hload
    · exact h.waiting load hload hempty
    · obtain rfl := List.mem_singleton.mp hload
      exact hdeferred hempty
  · rw [List.filter_append, List.map_append, List.nodup_append]
    refine ⟨h.once, ?_, ?_⟩
    · cases lines <;> simp
    · intro x hx y hy e
      obtain ⟨load, hload, rfl⟩ := List.mem_map.mp hx
      obtain ⟨hload, hne⟩ := List.mem_filter.mp hload
      obtain ⟨load', hload', rfl⟩ := List.mem_map.mp hy
      obtain rfl := List.mem_singleton.mp (List.mem_filter.mp hload').1
      obtain ⟨-, hpart⟩ := Prod.mk.inj e
      -- The part would have its receipt.
      rcases h.kept load hload (by simpa using hne) with ⟨-, -, ack, hack, -⟩ | ⟨hnomarker, -⟩
      · rw [hpart, hnone] at hack
        cases hack
      · cases hnomarker.symm.trans hmarker

theorem inv_link {ack : LinkAck} (h : Inv digest bucket w) (himport : importing w.object.kv source = some marker)
    (hbackup : bucket source = some backup) (hlines : readPart runtime backup plan part = .ok lines) :
    Inv digest bucket
      ⟨⟨db, { w.object.kv with
          linkedPart := Function.update w.object.kv.linkedPart part (some ack)
          marker := some { marker with verified := none } }⟩,
        w.loads, w.links ++ [(source, part)]⟩ := by
  obtain ⟨hmarker, hbegun, hsource⟩ := importing_some.mp himport
  have hunder : ∀ {o' : Object} {m' : Marker} {s : Source} {n : Nat}, o'.kv.marker = some m' → m'.begun = marker.begun ∧
      m'.source = marker.source → Under bucket w.object s n → Under bucket o' s n :=
    fun hm' hsame hu => hu.of_marker hmarker hm' hsame
  constructor
  · intro m v hm hv
    cases hm
    cases hv
  · intro m hm _
    cases hm
    rfl
  · intro n pack hack
    obtain ⟨hpart, load, hload, hl, hu⟩ := h.received n pack hack
    exact ⟨hpart, load, hload, hl, hunder rfl ⟨rfl, rfl⟩ hu⟩
  · intro n lack hack
    dsimp only at hack
    by_cases hn : n = part
    · subst hn
      exact ⟨source, by simp, _, backup, rfl, hbegun, hsource, hbackup, readPart_listed hlines⟩
    · rw [Function.update_of_ne hn] at hack
      obtain ⟨s, hs, hu⟩ := h.linked n lack hack
      exact ⟨s, by simp [hs], hunder rfl ⟨rfl, rfl⟩ hu⟩
  · intro load hload hne
    rcases h.kept load hload hne with ⟨hu, ht, hack⟩ | ⟨hnomarker, -⟩
    · exact .inl ⟨hunder rfl ⟨rfl, rfl⟩ hu, ht, hack⟩
    · cases hnomarker.symm.trans hmarker
  · exact h.waiting
  · exact h.once

theorem inv_complete (h : Inv digest bucket w) (himport : importing w.object.kv source = some marker)
    (hbackup : bucket source = some backup) (hddl : sameDdl (readDdl db) backup.manifest.ddl = true) :
    Inv digest bucket ⟨⟨db, cleared w.object.kv backup.manifest source⟩, w.loads, w.links⟩ := by
  obtain ⟨hmarker, hbegun, hsource⟩ := importing_some.mp himport
  -- Every receipt is of a part of this backup, so all of them go.
  have hlisted : ∀ s part, Under bucket w.object s part → (backup.manifest.parts.map (·.part)).contains part = true ∧
      s = source := by
    rintro s part ⟨m, b, hm, -, hs, hb, hpart⟩
    cases hmarker.symm.trans hm
    obtain rfl : s = source := hs.symm.trans hsource
    cases hbackup.symm.trans hb
    exact ⟨List.contains_iff_mem.mpr hpart, rfl⟩
  constructor
  · intro m v hm
    cases hm
  · intro m hm
    cases hm
  · intro part ack hack
    simp only [cleared] at hack
    split at hack
    · cases hack
    · next hnot =>
      obtain ⟨-, load, -, -, hu⟩ := h.received part ack hack
      exact absurd (hlisted _ _ hu).1 hnot
  · intro part ack hack
    simp only [cleared] at hack
    split at hack
    · cases hack
    · next hnot =>
      obtain ⟨s, -, hu⟩ := h.linked part ack hack
      exact absurd (hlisted _ _ hu).1 hnot
  · intro load hload hne
    rcases h.kept load hload hne with ⟨hu, ht, -⟩ | ⟨hnomarker, -⟩
    · have hs := (hlisted _ _ hu).2
      exact .inr ⟨rfl, holdsTables_of_ddl hddl (ht backup (hs ▸ hbackup))⟩
    · cases hnomarker.symm.trans hmarker
  · exact h.waiting
  · exact h.once

theorem inv_moves (h : Inv digest bucket w) (hmove : Moves digest runtime bucket w.object request o' answer) :
    Inv digest bucket (w.logged runtime bucket request o' answer) := by
  have same : ∀ {request : Request} {answer : Answer}, answer ≠ .discarded →
      loadOf runtime bucket w.object request answer = [] → linkOf w.object request answer = [] →
      Inv digest bucket (w.logged runtime bucket request w.object answer) := by
    intro request answer hanswer hload hlink
    rw [logged_same hanswer hload hlink]
    exact h
  cases hmove with
  | stays hcomplete hdiscard hload hlink =>
    exact same hdiscard (loadOf_stays hload) (linkOf_stays hlink)
  | again => exact same (by simp) rfl rfl
  | prepares hu hkv _ hdiscard =>
    rw [logged_same hdiscard rfl rfl]
    rcases hkv with ⟨hkv, hmarker⟩ | hkv
    · refine inv_begun h hu (by simp [hkv]) (fun marker hm => ?_)
      rcases hu with ⟨hnone, -⟩ | ⟨m, hm', -, hbegun⟩
      · exact absurd hnone hmarker
      · rw [hkv, hm'] at hm
        cases hm
        exact h.unbegun _ hm' hbegun
    · refine inv_begun h hu (by simp [hkv]) (fun marker hm => ?_)
      rw [hkv] at hm
      cases hm
      rfl
  | begins hu hkv =>
    rw [logged_same (by simp) rfl rfl]
    refine inv_begun h hu (by simp [hkv]) (fun marker hm => ?_)
    rw [hkv] at hm
    cases hm
    rfl
  | @loads source part deferred marker backup plan lines db himport hbackup hplan hnone hlines hdeferred =>
    have hlog : loadOf runtime bucket w.object (.part source part) (.part ⟨part, lines.length, deferred⟩) =
        [⟨source, part, lines, deferred⟩] := by
      simp [loadOf, hnone, partLines, hbackup, hplan, hlines]
    simp only [World.logged, hlog, reduceCtorEq, if_false]
    simp only [linkOf, List.append_nil]
    exact inv_load h himport hbackup hplan hnone hlines hdeferred
  | @links source part marker backup plan lines ack db himport hbackup hnone hlines =>
    have hlog : linkOf w.object (.link source part) (.link ack) = [(source, part)] := by simp [linkOf, hnone]
    simp only [World.logged, hlog, reduceCtorEq, if_false]
    simp only [loadOf, List.append_nil]
    exact inv_link h himport hbackup hlines
  | @verifies source cursor marker backup answer himport hbackup _ hdiscard =>
    obtain ⟨hmarker, hbegun, hsource⟩ := importing_some.mp himport
    rw [logged_same hdiscard rfl rfl]
    have hstands : ∀ v, marker.verified = some v → Stands digest w.object.db.rows backup.manifest.tables v.next := by
      intro v hv
      obtain ⟨b, hb, hstands⟩ := h.stands marker v hmarker hv
      rw [hsource, hbackup] at hb
      cases hb
      exact hstands
    rcases verify_cases cursor himport hstands with hsame | ⟨verified, hsame, hnew, -⟩
    · rw [hsame]
      exact h
    · rw [hsame]
      refine h.reverified ⟨rfl, rfl⟩ (fun s n hu => hu.of_marker hmarker rfl ⟨rfl, rfl⟩) (fun e => ?_) ?_ ?_
      · cases e.symm.trans hmarker
      · intro m v hm hv
        cases hm
        exact ⟨backup, hsource ▸ hbackup, hnew v hv⟩
      · intro m hm hb
        cases hm
        cases hbegun.symm.trans hb
  | @creates source db answer himport hrows _ hdiscard =>
    obtain ⟨marker, himport⟩ := Option.ne_none_iff_exists'.mp himport
    obtain ⟨hmarker, -, -⟩ := importing_some.mp himport
    rw [logged_same hdiscard rfl rfl]
    refine h.reverified ⟨rfl, rfl⟩ (fun s n hu => hu) (fun e => ?_) ?_ h.unbegun
    · cases e.symm.trans hmarker
    · dsimp only
      rw [hrows]
      exact h.stands
  | completes himport hbackup _ _ _ _ hddl =>
    rw [logged_same (by simp) rfl rfl]
    exact inv_complete h himport hbackup hddl
  | wipes =>
    have huntouched : Untouched wiped := ⟨rfl, fun _ => rfl, fun _ => rfl, fun _ => rfl⟩
    simp only [World.logged, if_true]
    exact inv_of huntouched

theorem inv_after (h : Inv digest bucket w) (requests : List Request) :
    Inv digest bucket (w.after runtime digest bucket release requests) := by
  induction requests generalizing w with
  | nil => exact h
  | cons request rest ih => exact ih (inv_moves h (step_moves w.object request))

/-! ## Rows of one hash -/

theorem Hashed.append {rows : List Row} {text : Text} (h : Hashed digest rows text) (more : List Row) :
    Hashed digest (rows ++ more) text := by
  obtain ⟨read, row, rest, rfl, rfl⟩ := h
  exact ⟨read, row, rest ++ more, by simp, rfl⟩

theorem hashOf_concat (rows : List Row) (row : Row) :
    hashOf digest (rows ++ [row]) = digest.sha256Hex ((hashOf digest rows).toList ++ '\n' :: rowEncoding row) := by
  simp only [hashOf, List.map_append, List.map_cons, List.map_nil, List.foldl_append, List.foldl_cons, List.foldl_nil]
  rfl

/-- Equal texts were hashed behind equal hashes: a hash has a fixed length. -/
theorem hashed_inj {read read' : List Row} {row row' : Row}
    (h : (hashOf digest read).toList ++ '\n' :: rowEncoding row = (hashOf digest read').toList ++ '\n' :: rowEncoding row') :
    hashOf digest read = hashOf digest read' ∧ rowEncoding row = rowEncoding row' := by
  have hlength : ∀ rows : List Row, (hashOf digest rows).toList.length = 64 := by
    intro rows
    have hsha : isSha256Hex (hashOf digest rows) = true := isSha_hashOf rows
    simp only [isSha256Hex, Bool.and_eq_true, beq_iff_eq] at hsha
    exact hsha.1
  obtain ⟨hhash, hrest⟩ := List.append_inj h ((hlength read).trans (hlength read').symm)
  exact ⟨String.toList_inj.mp hhash, (List.cons.inj hrest).2⟩

theorem rows_of_hash {a b : List Row} (ha : ∀ row ∈ a, row.values.all Value.isPrinted = true)
    (hb : ∀ row ∈ b, row.values.all Value.isPrinted = true) (hlength : a.length = b.length)
    (hhash : hashOf digest a = hashOf digest b) (hno : NoCollision digest a b) : a = b := by
  -- From the last row back: the hash of the rows before it stands in the text it hashes.
  induction a using List.reverseRec generalizing b with
  | nil => exact (List.length_eq_zero_iff.mp hlength.symm).symm
  | append_singleton a x ih =>
    rcases List.eq_nil_or_concat b with rfl | ⟨b, y, rfl⟩
    · simp at hlength
    · rw [List.concat_eq_append] at hb hlength hhash hno ⊢
      rw [hashOf_concat, hashOf_concat] at hhash
      obtain ⟨hbefore, hrow⟩ := hashed_inj (hno _ _ ⟨a, x, [], rfl, rfl⟩ ⟨b, y, [], rfl, rfl⟩ hhash)
      have hx : x = y := rowEncoding_inj (ha x (by simp)) (hb y (by simp)) hrow
      have hab : a = b := by
        refine ih (fun row hr => ha row (by simp [hr])) (fun row hr => hb row (by simp [hr])) ?_ hbefore ?_
        · simpa using hlength
        · exact fun u v hu hv => hno u v (hu.append _) (hv.append _)
      rw [hx, hab]

/-! ## What a run comes to -/

@[simp] theorem logged_object (request : Request) (o' : Object) (answer : Answer) :
    (w.logged runtime bucket request o' answer).object = o' := by
  unfold World.logged
  split
  · rfl
  · rfl

variable (runtime digest bucket release w) in
theorem World.moves (request : Request) : Moves digest runtime bucket w.object request
    (w.step runtime digest bucket release request).object (w.answer runtime digest bucket release request) := by
  simp only [World.step, logged_object]
  exact step_moves w.object request

/-- What every move leads to, the step leads to. -/
theorem World.of_moves (P : Object → Prop) (h : ∀ o' answer, Moves digest runtime bucket w.object request o' answer → P o') :
    P (w.step runtime digest bucket release request).object :=
  h _ _ (w.moves runtime digest bucket release request)

/-- The step that clears the marker is the one that checked everything. -/
theorem World.clears_cases (h : w.clears runtime digest bucket release source) :
    ∃ marker backup verified, importing w.object.kv source = some marker ∧ bucket source = some backup ∧
      (∀ part ∈ backup.manifest.parts, waits w.object.kv part = false) ∧ marker.verified = some verified ∧ verified.next = none ∧
      (w.step runtime digest bucket release (.complete source)).object.db.rows = w.object.db.rows ∧
      sameDdl (readDdl (w.step runtime digest bucket release (.complete source)).object.db) backup.manifest.ddl = true := by
  obtain ⟨hsome, hnone⟩ := h
  have hmoves := w.moves runtime digest bucket release (.complete source)
  generalize w.step runtime digest bucket release (.complete source) = w' at hmoves hnone ⊢
  generalize w.answer runtime digest bucket release (.complete source) = answer at hmoves
  obtain ⟨o', loads, links⟩ := w'
  dsimp only at hmoves hnone ⊢
  cases hmoves with
  | stays => exact absurd hnone hsome
  | again => exact absurd hnone hsome
  | creates => exact absurd hnone hsome
  | completes himport hbackup hparts hverified hnext hrows hddl =>
    exact ⟨_, _, _, himport, hbackup, hparts, hverified, hnext, hrows, hddl⟩

theorem Inv.holds (h : Inv digest bucket w) (hclears : w.clears runtime digest bucket release source) :
    ∃ backup, bucket source = some backup ∧
      HoldsBackup digest (w.step runtime digest bucket release (.complete source)).object.db backup.manifest ∧
      (∀ part ∈ backup.manifest.parts, ∃ load ∈ w.loads, load.source = source ∧ load.part = part.part) ∧
      ∀ load ∈ w.loads, load.source = source → 0 < load.deferred → (source, load.part) ∈ w.links := by
  obtain ⟨marker, backup, verified, himport, hbackup, hparts, hverified, hnext, hrows, hddl⟩ := World.clears_cases hclears
  obtain ⟨hmarker, -, hsource⟩ := importing_some.mp himport
  have hunder : ∀ {s : Source} {part : Nat}, Under bucket w.object s part → s = source ∧
      part ∈ backup.manifest.parts.map (·.part) := by
    rintro s part ⟨m, b, hm, -, hs, hb, hpart⟩
    cases hmarker.symm.trans hm
    obtain rfl : s = source := hs.symm.trans hsource
    cases hbackup.symm.trans hb
    exact ⟨rfl, hpart⟩
  have hcounted : ∀ table ∈ backup.manifest.tables, Matches digest (w.object.db.rows table.name) table := by
    obtain ⟨b, hb, hstands⟩ := h.stands marker verified hmarker hverified
    rw [hsource, hbackup] at hb
    cases hb
    rw [hnext] at hstands
    exact hstands
  refine ⟨backup, hbackup, ⟨?_, ?_, List.isPerm_iff.mp hddl⟩, ?_, ?_⟩
  · rw [hrows]
    exact hcounted
  · rw [hrows]
    intro table htable rows hprinted hmatch hno
    obtain ⟨hlength, hhash⟩ := hcounted table htable
    exact rows_of_hash (w.object.db.printed table.name) hprinted (hlength.trans hmatch.1.symm) (hhash.trans hmatch.2.symm) hno
  · intro part hpart
    have hwaits := hparts part hpart
    unfold waits at hwaits
    split at hwaits
    · cases hwaits
    · next ack hack =>
      obtain ⟨-, load, hload, hl, hu⟩ := h.received _ ack hack
      exact ⟨load, hload, (hunder hu).1, hl⟩
  · intro load hload hs hdeferred
    have hlines : load.lines ≠ [] := by
      intro e
      have := h.waiting load hload e
      omega
    rcases h.kept load hload hlines with ⟨hu, -, ack, hack, hd⟩ | ⟨hnone, -⟩
    · obtain ⟨part, hpart, hnumber⟩ := List.mem_map.mp (hunder hu).2
      have hwaits := hparts part hpart
      simp only [waits, hnumber, hack, (h.received _ ack hack).1, hd, hdeferred, decide_true, Bool.true_and] at hwaits
      obtain ⟨lack, hlack⟩ := Option.isSome_iff_exists.mp (by simpa using hwaits)
      obtain ⟨s, hlink, hu'⟩ := h.linked _ lack hlack
      exact (hunder hu').1 ▸ hlink
    · cases hnone.symm.trans hmarker

/-! ## Writes undo a verification -/

def Unverified (object : Object) : Prop := ∀ marker, object.kv.marker = some marker → marker.verified = none

theorem World.writes.unverified (h : w.writes runtime digest bucket release request) :
    Unverified (w.step runtime digest bucket release request).object := by
  have hmoves := w.moves runtime digest bucket release request
  unfold World.writes at h
  generalize w.step runtime digest bucket release request = w' at hmoves ⊢
  generalize w.answer runtime digest bucket release request = answer at hmoves h
  obtain ⟨o', loads, links⟩ := w'
  dsimp only at hmoves ⊢
  cases hmoves with
  | stays _ _ hload hlink =>
    rcases h with h | h
    · exact absurd (loadOf_stays hload) h
    · exact absurd (linkOf_stays hlink) h
  | loads =>
    intro marker hm
    cases hm
    rfl
  | links =>
    intro marker hm
    cases hm
    rfl
  | again => exact absurd h (by simp [loadOf, linkOf])
  | prepares => exact absurd h (by simp [loadOf, linkOf])
  | begins => exact absurd h (by simp [loadOf, linkOf])
  | verifies => exact absurd h (by simp [loadOf, linkOf])
  | creates => exact absurd h (by simp [loadOf, linkOf])
  | completes => exact absurd h (by simp [loadOf, linkOf])
  | wipes => exact absurd h (by simp [loadOf, linkOf])

/-- Only a verification from the start makes one where there was none. -/
theorem unverified_step (h : Unverified w.object) (hrequest : ∀ source, request ≠ .verify source none) :
    Unverified (w.step runtime digest bucket release request).object := by
  refine World.of_moves Unverified fun o' answer hmoves => ?_
  cases hmoves with
  | stays => exact h
  | again => exact h
  | creates => exact h
  | prepares _ hkv =>
    intro marker hm
    rcases hkv with ⟨hkv, -⟩ | hkv
    · exact h marker (hkv ▸ hm)
    · rw [hkv] at hm
      cases hm
      rfl
  | begins _ hkv =>
    intro marker hm
    rw [hkv] at hm
    cases hm
    rfl
  | loads =>
    intro marker hm
    cases hm
    rfl
  | links =>
    intro marker hm
    cases hm
    rfl
  | @verifies source cursor marker backup answer himport hbackup =>
    obtain ⟨hmarker, -, hsource⟩ := importing_some.mp himport
    have hstands : ∀ v, marker.verified = some v → Stands digest w.object.db.rows backup.manifest.tables v.next := by
      intro v hv
      rw [h marker hmarker] at hv
      cases hv
    rcases verify_cases cursor himport hstands with hsame | ⟨verified, hsame, -, hnew⟩
    · rw [hsame]
      exact h
    · rw [hsame]
      intro m hm
      cases hm
      by_contra hne
      rcases hnew hne with rfl | hold
      · exact hrequest source rfl
      · exact hold (h marker hmarker)
  | completes =>
    intro marker hm
    cases hm
  | wipes =>
    intro marker hm
    cases hm

theorem unverified_after {requests : List Request} (h : Unverified w.object)
    (hrequests : ∀ source, Request.verify source none ∉ requests) :
    Unverified (w.after runtime digest bucket release requests).object := by
  induction requests generalizing w with
  | nil => exact h
  | cons request rest ih =>
    refine ih (unverified_step h ?_) ?_
    · exact fun source e => hrequests source (by simp [e])
    · exact fun source hmem => hrequests source (by simp [hmem])

/-! ## A completed import stays -/

/-- Where an import completed, the object holds tables and no import is under way. -/
def Settled (object : Object) : Prop :=
  ∀ source, object.kv.completed source = true → object.kv.marker = none ∧ holdsTables object.db = true

/-- No step changes such an object. -/
theorem step_frozen (hmarker : w.object.kv.marker = none) (htables : holdsTables w.object.db = true) (request : Request) :
    (w.step runtime digest bucket release request).object = w.object := by
  have hnone : ∀ {source : Source}, importing w.object.kv source = none := by simp [importing, hmarker]
  have hbegun : ∀ {source : Source}, ¬Unbegun w.object source := by
    rintro source (⟨-, h⟩ | ⟨marker, h, -⟩)
    · cases htables.symm.trans h
    · cases hmarker.symm.trans h
  refine World.of_moves (· = w.object) fun o' answer hmoves => ?_
  cases hmoves with
  | stays => rfl
  | again => rfl
  | prepares hu => exact absurd hu hbegun
  | begins hu => exact absurd hu hbegun
  | loads himport => cases hnone.symm.trans himport
  | links himport => cases hnone.symm.trans himport
  | verifies himport => cases hnone.symm.trans himport
  | creates himport => exact absurd hnone himport
  | completes himport => cases hnone.symm.trans himport
  | wipes h => exact absurd hmarker h

theorem after_frozen (hmarker : w.object.kv.marker = none) (htables : holdsTables w.object.db = true) (requests : List Request) :
    (w.after runtime digest bucket release requests).object = w.object := by
  induction requests generalizing w with
  | nil => rfl
  | cons request rest ih =>
    have hsame : (w.step runtime digest bucket release request).object = w.object := step_frozen hmarker htables request
    exact (ih (hsame ▸ hmarker) (hsame ▸ htables)).trans hsame

/-- A backup that is completed lists a table. -/
def Tabled (bucket : Bucket) (request : Request) : Prop :=
  ∀ source, request = .complete source → ∀ backup, bucket source = some backup → backup.manifest.tables ≠ []

theorem settled_step (h : Settled w.object) (hrequest : Tabled bucket request) :
    Settled (w.step runtime digest bucket release request).object := by
  -- A step that moves the marker finds nothing completed.
  have fresh : ∀ {o' : Object}, o'.kv.completed = w.object.kv.completed →
      (∀ source, w.object.kv.marker = none → holdsTables w.object.db = true → w.object.kv.completed source = false) →
        Settled o' := by
    intro o' hsame hnot source hdone
    rw [hsame] at hdone
    obtain ⟨hmarker, htables⟩ := h source hdone
    cases hdone.symm.trans (hnot source hmarker htables)
  refine World.of_moves Settled fun o' answer hmoves => ?_
  have begun : ∀ {source : Source} {marker : Marker}, importing w.object.kv source = some marker →
      ∀ source, w.object.kv.marker = none → holdsTables w.object.db = true → w.object.kv.completed source = false := by
    intro source marker himport source' hmarker
    cases hmarker.symm.trans (importing_some.mp himport).1
  have unbegun : ∀ {source : Source}, Unbegun w.object source →
      ∀ source, w.object.kv.marker = none → holdsTables w.object.db = true → w.object.kv.completed source = false := by
    intro source hu source' hmarker htables
    rcases hu with ⟨-, hno⟩ | ⟨marker, hm, -⟩
    · cases htables.symm.trans hno
    · cases hmarker.symm.trans hm
  cases hmoves with
  | stays => exact h
  | again => exact h
  | prepares hu hkv =>
    refine fresh ?_ (unbegun hu)
    rcases hkv with ⟨hkv, -⟩ | hkv
    · rw [hkv]
    · rw [hkv]
  | begins hu hkv => exact fresh (by rw [hkv]) (unbegun hu)
  | loads himport => exact fresh rfl (begun himport)
  | links himport => exact fresh rfl (begun himport)
  | @verifies source cursor marker backup answer himport =>
    refine fresh ?_ (begun himport)
    exact verify_completed source backup.manifest cursor w.object
  | creates himport =>
    obtain ⟨marker, himport⟩ := Option.ne_none_iff_exists'.mp himport
    exact fresh rfl (begun himport)
  | @completes source _ backup _ _ _ hbackup _ _ _ _ hddl =>
    exact fun _ _ => ⟨rfl, holdsTables_of_ddl hddl (hrequest source rfl backup hbackup)⟩
  | wipes => exact fun source hdone => nomatch hdone

theorem settled_after {requests : List Request} (h : Settled w.object) (hrequests : ∀ request ∈ requests, Tabled bucket request) :
    Settled (w.after runtime digest bucket release requests).object := by
  induction requests generalizing w with
  | nil => exact h
  | cons request rest ih =>
    refine ih (settled_step h (hrequests request (by simp))) ?_
    exact fun r hr => hrequests r (by simp [hr])

/-- A `complete` that answers leaves its receipt. -/
theorem completed_of_answer (h : w.answer runtime digest bucket release (.complete source) = .complete source) :
    (w.step runtime digest bucket release (.complete source)).object.kv.completed source = true := by
  have hmoves := w.moves runtime digest bucket release (.complete source)
  rw [h] at hmoves
  generalize w.step runtime digest bucket release (.complete source) = w' at hmoves ⊢
  obtain ⟨o', loads, links⟩ := w'
  dsimp only at hmoves ⊢
  cases hmoves with
  | stays hcomplete => exact absurd rfl (hcomplete source)
  | again _ hdone => exact hdone
  | creates _ _ hcomplete => exact absurd rfl (hcomplete source)
  | completes => exact Function.update_self _ _ _

theorem answer_of_completed (hmarker : w.object.kv.marker = none) (h : w.object.kv.completed source = true) :
    w.answer runtime digest bucket release (.complete source) = .complete source := by
  simp [World.answer, admittedStep, importing, hmarker, h]

theorem after_append (a b : List Request) : w.after runtime digest bucket release (a ++ b) =
    (w.after runtime digest bucket release a).after runtime digest bucket release b := List.foldl_append

theorem after_cons (request : Request) (rest : List Request) : w.after runtime digest bucket release (request :: rest) =
    (w.step runtime digest bucket release request).after runtime digest bucket release rest := rfl

/-! ## Backups of one part -/

def aSource : Source := ⟨"env", "2026-01-01"⟩

def onePart (member : Bytes) (hash : String) (ddl : List SchemaEntry) (migrations : List Migration) (tables : List DumpTable)
    (distinct : (tables.map (·.name)).Nodup)
    (declared : ((ddl.filter fun entry => entry.type = .table).map (·.name)).Perm (tables.map (·.name))) : Backup where
  manifest :=
    { consistent := true
      ddl, migrations, tables, parts := [⟨1, member.length, hash⟩]
      numbered := rfl
      some_part := by simp
      distinct, declared }
  data := member

def emptyHash : String := "e3b0c44298fc1c149afbf4c8996fb92427ae41e4649b934ca495991b7852b855"

/-- Rows for a table that are in order and printed. -/
def Database.put (db : Database) (table : String) (rows : List Row) : Option Database :=
  if h : (rows.Pairwise fun a b => a.rowid.1 < b.rowid.1) ∧ ∀ row ∈ rows, row.values.all Value.isPrinted = true then
    some { db with
      rows := fun name => if name = table then rows else db.rows name
      ordered := fun name => by split; exacts [h.1, db.ordered name]
      printed := fun name => by split; exacts [h.2, db.printed name] }
  else none

/-- Notes that answer notes, and none of which goes. -/
def noteSql : String := "CREATE TABLE note (id INTEGER PRIMARY KEY, reply_to INTEGER REFERENCES note)"

def keepSql : String := "CREATE TRIGGER keep BEFORE DELETE ON note BEGIN SELECT RAISE(ABORT, 'kept'); END"

/-- The rowid, the id and the key of a note that answers itself. -/
def noteValues : List Value := List.replicate 3 (.integer ⟨1, by constructor <;> decide⟩)

/-- The gzip member of the note's line. -/
def noteMember : Bytes :=
  [31, 139, 8, 0, 0, 0, 0, 0, 0, 3, 171, 86, 42, 73, 76, 202, 73, 85, 178, 82, 202, 203, 47, 73, 85, 210, 81, 42, 202,
    47, 87, 178, 138, 86, 202, 180, 50, 4, 114, 16, 100, 108, 45, 23, 0, 29, 220, 237, 135, 43, 0, 0, 0]

def noteMemberHash : String := "37de6fe9d5c19b609eefb19abbbbd934576773d2a18da343f1fc344795dc3b6b"

def noteSqlHash : String := "2a23e22545b681b017053d0c6efa6180402e304ab3f479958805fc9f9a94ef26"

def noteHash : String := "de42c840bd316b1411d2e9611239d709a6151398806d285420695a3bdfee3d48"

/-- SQLite on the statements of the notes. -/
def noteRuntime : Runtime where
  exec db
    | .insert table _ [.integer id, reply] => db.put table (db.rows table ++ [⟨id, [.integer id, reply]⟩])
    | .update table [(_, reply)] _ (.integer id) =>
      db.put table ((db.rows table).map fun row => if row.rowid = id then ⟨id, [.integer id, reply]⟩ else row)
    | .dropTrigger name => some { db with schema := db.schema.filter fun row => row.name ≠ name }
    | .createTrigger sql => some { db with schema := db.schema ++ [⟨.trigger, "keep", "note", some sql⟩] }
    | _ => some db
  planOpsDump schema :=
    .ok ((schema.filter fun row => row.type = .table).map fun row => ⟨row.name, "id", ["id", "reply_to"], ["reply_to"]⟩)
  gunzipWithin _ _ := some (encodeOpsDumpLine "note" noteValues ++ ['\n'])
  sha256OfBytes _ := noteMemberHash
  decodeOpsDumpLine text := if text = encodeOpsDumpLine "note" noteValues then some ⟨"note", noteValues⟩ else none
  create_rows _ _ _ h := by
    cases h
    rfl

def noteDigest : Digest where
  sha256Hex text :=
    if text = noteSql.toList ++ ';' :: keepSql.toList then noteSqlHash
    else if text = emptyHash.toList ++ '\n' :: encodeOpsDumpRow noteValues then noteHash
    else emptyHash
  hex_digits text := by split <;> [skip; split] <;> decide

/-- The database behind the one migration of `noteBucket`. -/
def noteDb : Database :=
  { wiped.db with schema := [⟨.table, "note", "note", some noteSql⟩, ⟨.trigger, "keep", "note", some keepSql⟩] }

def noteBucket : Bucket := fun source =>
  if source = aSource then
    some (onePart noteMember noteMemberHash [⟨.table, "note", "note", noteSql⟩, ⟨.trigger, "keep", "note", keepSql⟩]
      [⟨"app", "0001.sql", noteSqlHash⟩] [⟨"note", 1, noteHash⟩] (List.nodup_singleton _) (.refl _))
  else none

def noteRelease : List Bundle := [⟨"app", [⟨"0001.sql", noteSql.toList ++ ';' :: keepSql.toList⟩]⟩]

theorem untouched_wiped : Untouched wiped := ⟨rfl, fun _ => rfl, fun _ => rfl, fun _ => rfl⟩

/-! ## The main theorem -/

/-- A run over backups that list a table. -/
theorem completes_exactly (runtime : Runtime) (digest : Digest) (bucket : Bucket) (release : List Bundle) (start : Object)
    (hstart : Untouched start) (requests : List Request) (hrequests : ∀ request ∈ requests, Tabled bucket request) :
    Exact runtime digest bucket release start requests := by
  have hinv : ∀ requests, Inv digest bucket ((World.of start).after runtime digest bucket release requests) :=
    inv_after (inv_of hstart)
  refine ⟨(hinv requests).once, fun source => (hinv requests).holds, ?_, ?_⟩
  · intro before request between source e hwrites hclears
    by_contra hno
    have hunverified : Unverified ((World.of start).after runtime digest bucket release requests).object := by
      rw [e, after_append, after_cons]
      exact unverified_after hwrites.unverified (fun named hmem => hno ⟨named, hmem⟩)
    obtain ⟨marker, _, verified, himport, -, -, hverified, -⟩ := World.clears_cases hclears
    rw [hunverified marker (importing_some.mp himport).1] at hverified
    cases hverified
  · intro before source between e hanswer
    have hdone := completed_of_answer hanswer
    have hsettled : Settled (((World.of start).after runtime digest bucket release before).step runtime digest bucket release
        (.complete source)).object := by
      refine settled_step (settled_after ?_ fun r hr => hrequests r (by simp [e, hr])) (hrequests _ (by simp [e]))
      intro s hs
      cases (hstart.completed s).symm.trans hs
    obtain ⟨hmarker, htables⟩ := hsettled source hdone
    have hsame := @after_frozen runtime digest bucket release _ hmarker htables between
    rw [e, after_append, after_cons]
    refine answer_of_completed ?_ ?_
    · exact (congrArg (·.kv.marker) hsame).trans hmarker
    · exact (congrArg (·.kv.completed source) hsame).trans hdone

/-- An import of a row with a deferred key, up to its `complete`. -/
def noteRun : List Request := [.begin_ aSource (.ok noteDb), .part aSource 1, .link aSource 1, .verify aSource none]

theorem noteRun_tabled (request : Request) : Tabled noteBucket request := by
  intro source _ backup hbackup
  unfold noteBucket at hbackup
  split at hbackup
  · cases hbackup
    exact List.cons_ne_nil _ _
  · cases hbackup

/-- The object behind `begin`: the migrated schema without its trigger. -/
def noteObject : Object where
  db := { wiped.db with schema := [⟨.table, "note", "note", some noteSql⟩] }
  kv := { wiped.kv with marker := some ⟨aSource, true, 0, none⟩ }

theorem note_ledger (h : noteBucket aSource = some backup) :
    (ledgerBundles noteDigest noteRelease backup.manifest).isNone = false := by
  cases h
  simp [ledgerBundles, byName, noteRelease, onePart, noteDigest]

theorem note_begins : admittedStep noteRuntime noteDigest noteBucket noteRelease wiped (.begin_ aSource (.ok noteDb)) =
    (noteObject, .begun 1) := by
  have hledger := note_ledger rfl
  show beginMigrated noteRuntime noteDigest noteRelease (.ok noteDb) aSource _ wiped = _
  rw [beginMigrated, hledger]
  rfl

/-- The world in front of the verification. -/
def noteWorld : World :=
  (World.of noteObject).after noteRuntime noteDigest noteBucket noteRelease [.part aSource 1, .link aSource 1]

theorem note_reads : verifyFrom noteDigest noteWorld.object.db [⟨"note", 1, noteHash⟩] none =
    some (.read [⟨"note", 1, noteHash⟩] none) := by
  show verifyTables noteDigest noteWorld.object.db [⟨"note", 1, noteHash⟩] (fresh noteDigest "note") partMaxRows [] = _
  have hpage : readPage noteWorld.object.db "note" none = [⟨⟨1, by constructor <;> decide⟩, noteValues.tail⟩] := rfl
  have hfold : foldOpsTableHash noteDigest (fresh noteDigest "note").hash
      [rowEncoding ⟨⟨1, by constructor <;> decide⟩, noteValues.tail⟩] =
      some noteHash := by decide
  rw [verifyTables, if_neg (by decide), show (fresh noteDigest "note").after = none from rfl]
  simp only [hpage, List.map_cons, List.map_nil, hfold]
  rw [if_neg (by decide), if_pos (by decide), if_neg (by decide), verifyTables]
  rfl

/-- Behind the verification every table matched. -/
theorem note_verifies : admittedStep noteRuntime noteDigest noteBucket noteRelease noteWorld.object (.verify aSource none) =
    (noteWorld.object.withMarker ⟨aSource, true, 1, some ⟨none, none⟩⟩, .verify ⟨[⟨"note", 1, noteHash⟩], none⟩) := by
  show verify noteDigest aSource _ none noteWorld.object = _
  have himport : importing noteWorld.object.kv aSource = some ⟨aSource, true, 1, none⟩ := by decide
  simp only [verify, himport, onePart, note_reads, Option.bind_none, Option.filter_none, ne_eq, not_true_eq_false,
    false_and, if_false]
  rfl

theorem note_after : (World.of wiped).after noteRuntime noteDigest noteBucket noteRelease noteRun =
    ⟨noteWorld.object.withMarker ⟨aSource, true, 1, some ⟨none, none⟩⟩, noteWorld.loads, noteWorld.links⟩ := by
  have hbegun : (World.of wiped).step noteRuntime noteDigest noteBucket noteRelease (.begin_ aSource (.ok noteDb)) =
      World.of noteObject := by
    rw [World.step, World.answer, show (World.of wiped).object = wiped from rfl, note_begins]
    rfl
  have hverified : noteWorld.step noteRuntime noteDigest noteBucket noteRelease (.verify aSource none) = 
      ⟨noteWorld.object.withMarker ⟨aSource, true, 1, some ⟨none, none⟩⟩, noteWorld.loads, noteWorld.links⟩ := by
    rw [World.step, World.answer, note_verifies]
    simp [World.logged, loadOf, linkOf]
  rw [noteRun, after_cons, hbegun]
  exact hverified

/-- The import is exact in front of `complete` and behind two of them; the first one clears the marker. -/
theorem a_completed_import_is_exact :
    Untouched wiped ∧ Exact noteRuntime noteDigest noteBucket noteRelease wiped noteRun ∧
      Exact noteRuntime noteDigest noteBucket noteRelease wiped (noteRun ++ [.complete aSource, .complete aSource]) ∧
      ((World.of wiped).after noteRuntime noteDigest noteBucket noteRelease noteRun).clears noteRuntime noteDigest noteBucket
      noteRelease aSource ∧
      ((World.of wiped).after noteRuntime noteDigest noteBucket noteRelease noteRun).loads.map (fun load =>
        (load.part, load.lines.length, load.deferred)) = [(1, 1, 1)] := by
  refine ⟨untouched_wiped, completes_exactly _ _ _ _ _ untouched_wiped _ fun request _ => noteRun_tabled request,
    completes_exactly _ _ _ _ _ untouched_wiped _ fun request _ => noteRun_tabled request, ?_, ?_⟩
  · rw [note_after]
    exact ⟨by decide, by decide⟩
  · rw [note_after]
    decide

/-! ## A backup without a table -/

/-- The gzip member of no line. -/
def emptyMember : Bytes := [0x1f, 0x8b, 8, 0, 0, 0, 0, 0, 0, 3, 3, 0, 0, 0, 0, 0, 0, 0, 0, 0]

def emptyMemberHash : String := "59869db34853933b239f1e2219cf7d431da006aa919635478511fabbfc8849d2"

/-- SQLite without a table, and a part without a line. -/
def emptyRuntime : Runtime where
  exec db _ := some db
  planOpsDump _ := .ok []
  gunzipWithin _ _ := some []
  sha256OfBytes _ := emptyMemberHash
  decodeOpsDumpLine _ := none
  create_rows _ _ _ h := by
    cases h
    rfl

/-- The hash of the empty text. -/
def emptyDigest : Digest where
  sha256Hex _ := emptyHash
  hex_digits _ := by decide

def emptyBucket : Bucket := fun source =>
  if source = aSource then some (onePart emptyMember emptyMemberHash [] [] [] .nil .nil) else none

/-- The import completes, and the object is taken again as a fresh one. -/
def takenAgain : List Request :=
  [.begin_ aSource (.ok wiped.db), .part aSource 1, .verify aSource none, .complete aSource, .begin_ aSource (.ok wiped.db)]

theorem a_completed_import_is_forgotten :
    Untouched wiped ∧ ¬Exact emptyRuntime emptyDigest emptyBucket [] wiped takenAgain := by
  refine ⟨untouched_wiped, fun h => ?_⟩
  have hfirst : ((World.of wiped).after emptyRuntime emptyDigest emptyBucket [] (takenAgain.take 3)).answer emptyRuntime
      emptyDigest emptyBucket [] (.complete aSource) = .complete aSource := by
    decide
  have hretried := h.retried (takenAgain.take 3) aSource [.begin_ aSource (.ok wiped.db)] rfl hfirst
  have hrefused : ((World.of wiped).after emptyRuntime emptyDigest emptyBucket [] takenAgain).answer emptyRuntime
      emptyDigest emptyBucket [] (.complete aSource) = refused .partMismatch := by
    decide
  cases hretried.symm.trans hrefused

end Fabrika.App.Import
