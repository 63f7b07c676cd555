/-
  Fabrika.Control.PublishProofs — no widening is published without an approval that names it
  (see `Fabrika.Control.Publish`).

  Two facts carry it over everything that happens between a publication's steps. `Onward`: an
  environment is left as it was or its generation moves past what anyone read, a deletion and a
  re-creation included, so the row at the compare-and-swap is the row the candidate was compared
  with. `Steady`: while the lock is the publisher's, the run it read is not decided again, so the
  approval that counted is the one the run carries.
-/

import Fabrika.Control.Publish
import Fabrika.Control.RunsProofs

namespace Fabrika.Control.Publish

open Fabrika.Lib Fabrika.Control.Runs

variable {formats : Formats} {lower : String → String} {db db' : Database} {c : Coordinate}

/-! ## Generations only move on -/

/-- No compare-and-swap at `generation` succeeds on this environment any more. -/
def Passed (db : Database) (c : Coordinate) (generation : Nat) : Prop :=
  match db.appEnvs c with
  | some row => generation < row.generation
  | none => ∃ kept, db.protections c = some kept ∧ generation < kept.generation

structure Onward (db db' : Database) (c : Coordinate) : Prop where
  kept : ∀ row, db.appEnvs c = some row → db'.appEnvs c = some row ∨ Passed db' c row.generation
  passed : ∀ generation, Passed db c generation → Passed db' c generation

variable {row row' : AppEnvRow} {d : Coordinate} {run : RunRow} {holder key taker : String} {statement : Statement}
variable {nowMs ttlMs : Int} {publisher : Publisher} {s : System} {candidate : Snapshot}

theorem passed_some {generation : Nat} (h : db.appEnvs c = some row) :
    Passed db c generation ↔ generation < row.generation := by
  simp only [Passed, h]

theorem passed_none {generation : Nat} (h : db.appEnvs c = none) :
    Passed db c generation ↔ ∃ kept, db.protections c = some kept ∧ generation < kept.generation := by
  simp only [Passed, h]

theorem onward_same (henv : db'.appEnvs c = db.appEnvs c)
    (hkept : ∀ kept, db.protections c = some kept → db'.protections c = some kept) : Onward db db' c := by
  refine ⟨fun row hrow => .inl (henv.trans hrow), ?_⟩
  intro generation h
  unfold Passed at *
  rw [henv]
  split
  · rename_i row hrow
    rwa [hrow] at h
  · rename_i hrow
    rw [hrow] at h
    obtain ⟨kept, hk, hlt⟩ := h
    exact ⟨kept, hkept kept hk, hlt⟩

theorem onward_advanced (hrow : db.appEnvs c = some row) (hrow' : db'.appEnvs c = some row')
    (hlt : row.generation < row'.generation) : Onward db db' c := by
  refine ⟨?_, ?_⟩
  · intro was hwas
    rw [hrow] at hwas
    cases hwas
    exact .inr ((passed_some hrow').mpr hlt)
  · intro generation h
    exact (passed_some hrow').mpr (lt_trans ((passed_some hrow).mp h) hlt)

theorem onward_created (hrow : db.appEnvs c = none) (hrow' : db'.appEnvs c = some row')
    (hkept : ∀ kept, db.protections c = some kept → row'.generation = kept.generation) : Onward db db' c := by
  refine ⟨?_, ?_⟩
  · intro was hwas
    rw [hrow] at hwas
    cases hwas
  · intro generation h
    obtain ⟨kept, hk, hlt⟩ := (passed_none hrow).mp h
    rw [passed_some hrow', hkept kept hk]
    exact hlt

theorem onward_deleted (hrow : db.appEnvs c = some row) (hrow' : db'.appEnvs c = none)
    (hkept : db'.protections c = some (tombstone row)) : Onward db db' c := by
  have hpast : ∀ generation, generation ≤ row.generation → Passed db' c generation := fun generation hle =>
    (passed_none hrow').mpr ⟨_, hkept, Nat.lt_succ_of_le hle⟩
  refine ⟨?_, ?_⟩
  · intro was hwas
    rw [hrow] at hwas
    cases hwas
    exact .inr (hpast _ le_rfl)
  · intro generation h
    exact hpast generation (le_of_lt ((passed_some hrow).mp h))

theorem ensureProtection_kept {kept : ProtectionRow} (h : db.protections c = some kept) :
    (ensureProtection db d).protections c = some kept := by
  unfold ensureProtection
  split
  · exact h
  · rename_i hnone
    by_cases hcd : c = d
    · subst hcd
      rw [hnone] at h
      cases h
    · simpa [Function.update_of_ne hcd] using h

theorem onward_ensureProtection (d : Coordinate) : Onward db (ensureProtection db d) c :=
  onward_same (by rw [ensureProtection_appEnvs]) fun _ => ensureProtection_kept

/-- A write of another environment's row. -/
theorem onward_setAppEnv_ne (hne : c ≠ d) (row : Option AppEnvRow) : Onward db (setAppEnv (ensureProtection db d) d row) c := by
  refine onward_same ?_ fun _ => ensureProtection_kept
  simp [setAppEnv, Function.update_of_ne hne]

theorem onward_bumped (hrow : (ensureProtection db d).appEnvs d = some row) (hlt : row.generation < row'.generation) :
    Onward db (setAppEnv (ensureProtection db d) d (some row')) c := by
  by_cases hcd : c = d
  · subst hcd
    rw [ensureProtection_appEnvs] at hrow
    exact onward_advanced hrow (by simp [setAppEnv]) hlt
  · exact onward_setAppEnv_ne hcd _

theorem onward_inserted (hrow : (ensureProtection db d).appEnvs d = none) :
    Onward db (setAppEnv (ensureProtection db d) d (some (newAppEnv (ensureProtection db d) d))) c := by
  by_cases hcd : c = d
  · subst hcd
    rw [ensureProtection_appEnvs] at hrow
    refine onward_created hrow (by simp [setAppEnv]; rfl) ?_
    intro kept hkept
    simp only [newAppEnv, ensureProtection_kept hkept]
  · exact onward_setAppEnv_ne hcd _

theorem onward_upsertAppEnv (d : Coordinate) (expected : Option AppEnvExpectation) :
    Onward db (upsertAppEnv db d expected) c := by
  have hsame : Onward db db c := onward_same rfl fun _ h => h
  unfold upsertAppEnv
  dsimp only
  split
  · rename_i hrow
    exact onward_inserted hrow
  · rename_i row hrow
    exact onward_bumped hrow (Nat.lt_succ_self _)
  · rename_i hrow
    exact onward_inserted hrow
  · exact hsame
  · exact hsame
  · rename_i row hrow
    split
    · exact onward_bumped hrow (Nat.lt_succ_self _)
    · exact hsame

theorem onward_setAppEnvProtected (d : Coordinate) (value : Bool) (fence : LeaseFence) :
    Onward db (setAppEnvProtected db d value fence) c := by
  unfold setAppEnvProtected
  dsimp only
  split
  · exact onward_ensureProtection d
  · rename_i row hrow
    split
    · exact onward_bumped hrow (Nat.lt_succ_self _)
    · exact onward_ensureProtection d

theorem onward_deleteAppEnv (d : Coordinate) (expected : Option Nat) : Onward db (deleteAppEnv db d expected) c := by
  unfold deleteAppEnv
  dsimp only
  split
  · exact onward_ensureProtection d
  · rename_i row hrow
    rw [ensureProtection_appEnvs] at hrow
    split
    · by_cases hcd : c = d
      · subst hcd
        exact onward_deleted hrow (by simp [setAppEnv]) (by simp [setAppEnv])
      · refine onward_same (by simp [setAppEnv, Function.update_of_ne hcd]) ?_
        intro kept hkept
        simpa [setAppEnv, Function.update_of_ne hcd] using ensureProtection_kept hkept
    · exact onward_ensureProtection d

theorem onward_deleteApp (app : String) (deleted : Bool) : Onward db (deleteApp db app deleted) c := by
  cases hrow : db.appEnvs c with
  | none =>
    -- No row to leave a tombstone: the protection row stays whichever way.
    refine onward_same ?_ ?_
    · cases deleted <;> simp [deleteApp, hrow]
    · intro kept hkept
      cases deleted <;> simp [deleteApp, hrow, hkept]
  | some row =>
    by_cases happ : c.1 = app
    · cases deleted with
      | true => exact onward_deleted hrow (by simp [deleteApp, happ]) (by simp [deleteApp, happ, hrow])
      | false =>
        refine ⟨fun was hwas => .inl (by simpa [deleteApp] using hwas), ?_⟩
        intro generation h
        rw [passed_some hrow] at h
        exact (passed_some (by simpa [deleteApp] using hrow)).mpr h
    · refine onward_same ?_ ?_
      · cases deleted <;> simp [deleteApp, happ]
      · intro kept hkept
        cases deleted <;> simpa [deleteApp, happ] using hkept

/-! ## The compare-and-swap -/

/-- A publication changes nothing that counts, or it finds the environment as expected, for a run
    of it that is running under the fence's lease. -/
theorem publishRunSnapshot_cases (db : Database) (id : String) (expected : Expected) (snapshotJson : String)
    (fence : LeaseFence) :
    ((publishRunSnapshot db id expected snapshotJson fence).2 = false ∧ ∀ c,
      Onward db (publishRunSnapshot db id expected snapshotJson fence).1 c) ∨
      ∃ run row, (db.runs.find? fun run => run.id == id) = some run ∧ db.appEnvs run.coordinate = some row ∧
        row.generation = expected.generation ∧ Held db run fence ∧ run.status = .running ∧
        (publishRunSnapshot db id expected snapshotJson fence).2 = true ∧
        (publishRunSnapshot db id expected snapshotJson fence).1 = setAppEnv (ensureProtection db run.coordinate) run.coordinate
          (some { row with publishedRunId := some id, publishedSnapshotJson := some snapshotJson, generation := row.generation
            + 1 }) := by
  unfold publishRunSnapshot
  cases hfind : db.runs.find? fun run => run.id == id with
  | none => exact .inl ⟨rfl, fun c => onward_same rfl fun _ h => h⟩
  | some run =>
    dsimp only
    cases hrow : (ensureProtection db run.coordinate).appEnvs run.coordinate with
    | none => exact .inl ⟨rfl, fun c => onward_ensureProtection _⟩
    | some row =>
      dsimp only
      by_cases hpublishes : publishes (ensureProtection db run.coordinate) run row expected fence = true
      · rw [if_pos hpublishes]
        obtain ⟨hheld, hrunning, -⟩ := publishes_held hpublishes
        rw [ensureProtection_appEnvs] at hrow
        simp only [publishes, Bool.and_eq_true, beq_iff_eq] at hpublishes
        exact .inr ⟨run, row, rfl, hrow, hpublishes.1.1.1.1.1, held_ensureProtection.mp hheld, hrunning, rfl, rfl⟩
      · rw [if_neg hpublishes]
        exact .inl ⟨rfl, fun c => onward_ensureProtection _⟩

theorem onward_publishRunSnapshot (id : String) (expected : Expected) (snapshotJson : String) (fence : LeaseFence) :
    Onward db (publishRunSnapshot db id expected snapshotJson fence).1 c := by
  rcases publishRunSnapshot_cases db id expected snapshotJson fence with ⟨-, h⟩ | ⟨run, row, -, hrow, -, -, -, -, heq⟩
  · exact h c
  · rw [heq]
    exact onward_bumped (by rw [ensureProtection_appEnvs]; exact hrow) (Nat.lt_succ_self _)

theorem onward_execute (lower : String → String) (statement : Statement) : Onward db (execute lower db statement).1 c := by
  cases statement with
  | createRun input now =>
    simp only [execute, createRun]
    split
    · exact onward_same rfl fun _ h => h
    · exact onward_same rfl fun _ h => h
  | publishRunSnapshot id expected snapshotJson fence => exact onward_publishRunSnapshot id expected snapshotJson fence
  | _ => exact onward_same rfl fun _ h => h

/-! ## A run under its publisher's lease -/

/-- The lock of a coordinate is `holder`'s, live or expired. -/
def Locks (db : Database) (holder : String) (c : Coordinate) : Prop :=
  ∃ lock, db.locks (runLeaseKey c) = some lock ∧ lock.holder = holder

/-- The run as it was read: where it still runs under `holder`'s lock, it has not been decided
    since. -/
def Steady (db : Database) (holder : String) (run : RunRow) : Prop :=
  ∀ now ∈ db.runs, now.id = run.id → now.status = .running → Locks db holder now.coordinate →
    now.approvalJson = run.approvalJson ∧ now.coordinate = run.coordinate

theorem held_locks {fence : LeaseFence} (h : Held db run fence) : Locks db fence.holder run.coordinate := by
  unfold Held holdsKey at h
  split at h
  · rename_i lock hlock
    simp only [Bool.and_eq_true, beq_iff_eq] at h
    exact ⟨lock, hlock, h.1⟩
  · cases h

theorem Locks.unique {a b : String} (ha : Locks db a c) (hb : Locks db b c) : a = b := by
  obtain ⟨lock, hlock, rfl⟩ := ha
  obtain ⟨lock', hlock', rfl⟩ := hb
  rw [hlock] at hlock'
  cases hlock'
  rfl

theorem steady_same (hruns : ∀ now ∈ db'.runs, now ∈ db.runs) (hlocks : ∀ c, Locks db' holder c → Locks db holder c)
    (h : Steady db holder run) : Steady db' holder run :=
  fun now hnow hid hrunning hheld => h now (hruns now hnow) hid hrunning (hlocks _ hheld)

theorem execute_locks (lower : String → String) (db : Database) (statement : Statement) :
    (execute lower db statement).1.locks = db.locks := by
  cases statement with
  | createRun input now =>
    simp only [execute, createRun]
    split <;> rfl
  | publishRunSnapshot id expected snapshotJson fence =>
    simp only [execute, publishRunSnapshot]
    split
    · rfl
    · split
      · exact ensureProtection_locks _
      · split
        · exact ensureProtection_locks _
        · exact ensureProtection_locks _
  | _ => rfl

/-- What a write leaves of a run's decision, or whose lease it holds. -/
theorem wrote_undecided {run' : RunRow} (h : Wrote lower db run statement run') :
    (∃ id fence, statement.fenced = some (id, fence) ∧ Held db run fence) ∨
      run'.approvalJson = run.approvalJson ∧ run'.status = run.status := by
  cases h with
  | cancellation open' => exact .inr ⟨rfl, rfl⟩
  | externalId held running unset => exact .inl ⟨_, _, rfl, held⟩
  | checkpoint held running active => exact .inl ⟨_, _, rfl, held⟩
  | started held pending active alone newest => exact .inl ⟨_, _, rfl, held⟩
  | superseded held pending active => exact .inl ⟨_, _, rfl, held⟩
  | commit held running active same => exact .inl ⟨_, _, rfl, held⟩
  | barrier held running active => exact .inl ⟨_, _, rfl, held⟩
  | snapshot held running active => exact .inl ⟨_, _, rfl, held⟩
  | classification held running active => exact .inl ⟨_, _, rfl, held⟩
  | parked held running active => exact .inl ⟨_, _, rfl, held⟩
  | approved held waiting active shown => exact .inl ⟨_, _, rfl, held⟩
  | rejected held waiting active => exact .inl ⟨_, _, rfl, held⟩
  | finished held open' active => exact .inl ⟨_, _, rfl, held⟩
  | cancelled held open' requested => exact .inl ⟨_, _, rfl, held⟩

/-- Another holder's statement. -/
theorem steady_execute (hother : ∀ id fence, statement.fenced = some (id, fence) → fence.holder ≠ holder)
    (h : Steady db holder run) : Steady (execute lower db statement).1 holder run := by
  intro now hnow hid hrunning hlocks
  have hlocks' : Locks db holder now.coordinate := by
    unfold Locks at hlocks
    rwa [execute_locks] at hlocks
  rcases execute_rows hnow with ⟨input, at', -, -, rfl⟩ | ⟨was, hwas, rfl | hwrote⟩
  · cases hrunning
  · exact h now hwas hid hrunning hlocks'
  · rw [hwrote.later.coordinate] at hlocks'
    rcases wrote_undecided hwrote with ⟨id, fence, hfenced, hheld⟩ | ⟨happroval, hstatus⟩
    · exact absurd ((held_locks hheld).unique hlocks') (hother id fence hfenced)
    · rw [happroval, hwrote.later.coordinate]
      exact h was hwas (by rw [← hwrote.id, hid]) (by rw [← hstatus, hrunning]) hlocks'

/-- The publisher's own record of its classification. -/
theorem steady_recorded {id classificationJson : String} {fence : LeaseFence} (h : Steady db holder run) :
    Steady (recordRunClassification db id classificationJson fence).1 holder run := by
  intro now hnow hid hrunning hlocks
  obtain ⟨was, hwas, rfl | ⟨-, -, -, rfl⟩⟩ := mem_mutateRun hnow
  · exact h now hwas hid hrunning hlocks
  · exact h was hwas hid hrunning hlocks

theorem acquire_locks (hne : taker ≠ holder) (h : Locks (Runs.acquire db key taker nowMs ttlMs).1 holder c) :
    Locks db holder c := by
  have hupdate : ∀ lock : Lock, lock.holder = taker →
      (∃ lock', Function.update db.locks key (some lock) (runLeaseKey c) = some lock' ∧ lock'.holder = holder) →
        Locks db holder c := by
    intro lock hlock hlocks
    by_cases hkey : runLeaseKey c = key
    · rw [hkey, Function.update_self] at hlocks
      obtain ⟨lock', heq, hholder⟩ := hlocks
      cases heq
      exact absurd (hlock.symm.trans hholder) hne
    · rwa [Function.update_of_ne hkey] at hlocks
  unfold Runs.acquire at h
  split at h
  · exact hupdate _ rfl h
  · split at h
    · exact hupdate _ rfl h
    · exact h

theorem renew_locks (h : Locks (Runs.renew db key taker nowMs ttlMs).1 holder c) : Locks db holder c := by
  unfold Runs.renew at h
  split at h
  · rename_i lock hlock
    split at h
    · obtain ⟨lock', heq, hholder⟩ := h
      by_cases hkey : runLeaseKey c = key
      · subst hkey
        simp only [Function.update_self, Option.some.injEq] at heq
        subst heq
        exact ⟨lock, hlock, hholder⟩
      · exact ⟨lock', by simpa [Function.update_of_ne hkey] using heq, hholder⟩
    · exact h
  · exact h

theorem release_locks (h : Locks (Runs.release db key taker) holder c) : Locks db holder c := by
  unfold Runs.release at h
  split at h
  · split at h
    · obtain ⟨lock', heq, hholder⟩ := h
      by_cases hkey : runLeaseKey c = key
      · subst hkey
        simp at heq
      · exact ⟨lock', by simpa [Function.update_of_ne hkey] using heq, hholder⟩
    · exact h
  · exact h

/-! ## What a step of anyone else keeps -/

/-- What a change of the database keeps for the publication `holder` has under way. -/
structure Frame (holder : String) (db db' : Database) : Prop where
  ids : (db.runs.map RunRow.id).Nodup → (db'.runs.map RunRow.id).Nodup
  onward : ∀ c, Onward db db' c
  steady : ∀ run, Steady db holder run → Steady db' holder run

/-- A registry write: runs may go, locks stay. -/
theorem frame_registry (hids : (db'.runs.map RunRow.id).Sublist (db.runs.map RunRow.id))
    (hruns : ∀ now ∈ db'.runs, now ∈ db.runs) (hlocks : db'.locks = db.locks) (honward : ∀ c, Onward db db' c) :
    Frame holder db db' where
  ids h := h.sublist hids
  onward := honward
  steady run := steady_same hruns fun c h => by unfold Locks at *; rwa [hlocks] at h

theorem frame_same (hruns : db'.runs = db.runs) (hlocks : db'.locks = db.locks) (honward : ∀ c, Onward db db' c) :
    Frame holder db db' :=
  frame_registry (by rw [hruns]) (fun now h => by rwa [hruns] at h) hlocks honward

theorem frame_execute (hother : ∀ id fence, statement.fenced = some (id, fence) → fence.holder ≠ holder) :
    Frame holder db (execute lower db statement).1 where
  ids h := ids_nodup_step h (show Runs.Step lower db (.statement statement) _ from rfl)
  onward _ := onward_execute lower statement
  steady _ := steady_execute hother

/-- A change of the lease only. -/
theorem frame_lease (lower : String → String) (event : Runs.Event) (hevent : ∀ statement, event ≠ .statement statement)
    (henvs : (Runs.next lower db event).appEnvs = db.appEnvs) (hkept : (Runs.next lower db event).protections = db.protections)
    (hlocks : ∀ c, Locks (Runs.next lower db event) holder c → Locks db holder c) :
    Frame holder db (Runs.next lower db event) where
  ids h := by rwa [lease_runs hevent]
  onward c := onward_same (by rw [henvs]) fun _ h => by rwa [hkept]
  steady run := steady_same (fun now h => by rwa [lease_runs hevent] at h) hlocks

theorem acquire_rest (db : Database) (key taker : String) (nowMs ttlMs : Int) :
    (Runs.acquire db key taker nowMs ttlMs).1.runs = db.runs ∧ (Runs.acquire db key taker nowMs ttlMs).1.appEnvs = db.appEnvs ∧
      (Runs.acquire db key taker nowMs ttlMs).1.protections = db.protections := by
  unfold Runs.acquire
  split
  · exact ⟨rfl, rfl, rfl⟩
  · split
    · exact ⟨rfl, rfl, rfl⟩
    · exact ⟨rfl, rfl, rfl⟩

theorem onward_acquire (key taker : String) (nowMs ttlMs : Int) : Onward db (Runs.acquire db key taker nowMs ttlMs).1 c := by
  obtain ⟨-, henvs, hkept⟩ := acquire_rest db key taker nowMs ttlMs
  exact onward_same (by rw [henvs]) fun _ h => by rwa [hkept]

theorem frame_acquire (hne : taker ≠ holder) : Frame holder db (Runs.acquire db key taker nowMs ttlMs).1 := by
  obtain ⟨-, henvs, hkept⟩ := acquire_rest db key taker nowMs ttlMs
  exact frame_lease id (.acquire key taker nowMs ttlMs) (by simp) henvs hkept fun c => acquire_locks hne

theorem frame_renew : Frame holder db (Runs.renew db key taker nowMs ttlMs).1 := by
  refine frame_lease id (.renew key taker nowMs ttlMs) (by simp) ?_ ?_ fun c => renew_locks
  · simp only [Runs.next, Runs.renew]
    split
    · split <;> rfl
    · rfl
  · simp only [Runs.next, Runs.renew]
    split
    · split <;> rfl
    · rfl

theorem frame_release : Frame holder db (Runs.release db key taker) := by
  refine frame_lease id (.release key taker) (by simp) ?_ ?_ fun c => release_locks
  · simp only [Runs.next, Runs.release]
    split
    · split <;> rfl
    · rfl
  · simp only [Runs.next, Runs.release]
    split
    · split <;> rfl
    · rfl

theorem frame_upsertAppEnv (d : Coordinate) (expected : Option AppEnvExpectation) :
    Frame holder db (upsertAppEnv db d expected) := by
  refine frame_same ?_ ?_ fun c => onward_upsertAppEnv d expected
  · unfold upsertAppEnv
    dsimp only
    split <;> try split
    all_goals first | rfl | exact ensureProtection_runs _
  · unfold upsertAppEnv
    dsimp only
    split <;> try split
    all_goals first | rfl | exact ensureProtection_locks _

theorem frame_setAppEnvProtected (d : Coordinate) (value : Bool) (fence : LeaseFence) :
    Frame holder db (setAppEnvProtected db d value fence) := by
  refine frame_same ?_ ?_ fun c => onward_setAppEnvProtected d value fence
  · unfold setAppEnvProtected
    dsimp only
    split <;> try split
    all_goals exact ensureProtection_runs _
  · unfold setAppEnvProtected
    dsimp only
    split <;> try split
    all_goals exact ensureProtection_locks _

theorem frame_deleteAppEnv (d : Coordinate) (expected : Option Nat) : Frame holder db (deleteAppEnv db d expected) := by
  refine frame_same ?_ ?_ fun c => onward_deleteAppEnv d expected
  · unfold deleteAppEnv
    dsimp only
    split <;> try split
    all_goals exact ensureProtection_runs _
  · unfold deleteAppEnv
    dsimp only
    split <;> try split
    all_goals exact ensureProtection_locks _

theorem frame_deleteApp (app : String) (deleted : Bool) : Frame holder db (deleteApp db app deleted) := by
  cases deleted with
  | false => exact frame_same rfl rfl fun c => onward_deleteApp app false
  | true => exact frame_registry (List.filter_sublist.map _) (fun now h => (List.mem_filter.mp h).1) rfl fun c =>
    onward_deleteApp app true

/-! ## Every publication is approved -/

/-- The candidate was compared with the environment's active snapshot and nothing widens, or the
    run carries an approval of exactly these two. -/
def ApprovedFor (formats : Formats) (run : RunRow) (row : AppEnvRow) (candidate : Snapshot) : Prop :=
  ∃ active changes, approvedSnapshot formats row = some active ∧
    classifyAccess active.snapshot.toAccessSnapshot candidate.toAccessSnapshot = .ok changes ∧
    (NoneWidens changes ∨ ∃ raw approval, run.approvalJson = some raw ∧ formats.parseApproval raw = some approval ∧
      approval.candidateDigest = formats.snapshotDigest candidate ∧
      approval.baselineDigest = formats.snapshotDigest active.snapshot)

/-- The environment as it was read, unless its generation has passed. -/
def Known (db : Database) (c : Coordinate) (row : AppEnvRow) : Prop := db.appEnvs c = some row ∨ Passed db c row.generation

/-- What a publication relies on where it waits. -/
def Sound (formats : Formats) (db : Database) (holder : String) (publisher : Publisher) : Prop :=
  match publisher.stage with
  | .candidate => True
  | .boundary _ => True
  | .environment _ run => Steady db holder run
  | .classified candidate run row classification =>
    Steady db holder run ∧ Known db run.coordinate row ∧ ∃ published, approvedSnapshot formats row = some published ∧
      classify formats (activeOf publisher.workspaceBaseline published) candidate row = some classification
  | .recorded candidate run row =>
    Steady db holder run ∧ Known db run.coordinate row ∧
      (row.protected = true → publisher.workspaceBaseline = none → ApprovedFor formats run row candidate)

structure Inv (formats : Formats) (s : System) : Prop where
  ids : (s.db.runs.map RunRow.id).Nodup
  acquired : ∀ holder publisher, s.publishers holder = some publisher → s.acquired holder ≠ none
  sound : ∀ holder publisher, s.publishers holder = some publisher → Sound formats s.db holder publisher
  approved : ∀ p ∈ s.published, p.row.protected = true → p.workspaceBaseline = none → ApprovedFor formats p.run p.row p.candidate
  passed : ∀ p ∈ s.published, Passed s.db p.run.coordinate p.row.generation
  rising : s.published.Pairwise fun p q => p.run.coordinate = q.run.coordinate → p.row.generation < q.row.generation

theorem Known.onward (h : Known db c row) (ho : Onward db db' c) : Known db' c row := by
  rcases h with h | h
  · exact ho.kept row h
  · exact .inr (ho.passed _ h)

theorem Frame.sound (hf : Frame holder db db') (h : Sound formats db holder publisher) :
    Sound formats db' holder publisher := by
  unfold Sound at *
  split at h
  · trivial
  · trivial
  · exact hf.steady _ h
  · exact ⟨hf.steady _ h.1, h.2.1.onward (hf.onward _), h.2.2⟩
  · exact ⟨hf.steady _ h.1, h.2.1.onward (hf.onward _), h.2.2⟩

/-- A step that starts no publication and records none. -/
theorem inv_frame (hinv : Inv formats s) {acquired : String → Option String}
    (hacquired : ∀ holder, s.acquired holder ≠ none → acquired holder ≠ none) (honward : ∀ c, Onward s.db db' c)
    (hids : (db'.runs.map RunRow.id).Nodup)
    (hframe : ∀ holder publisher, s.publishers holder = some publisher → Frame holder s.db db') :
    Inv formats { s with db := db', acquired } where
  ids := hids
  acquired holder publisher h := hacquired holder (hinv.acquired holder publisher h)
  sound holder publisher h := (hframe holder publisher h).sound (hinv.sound holder publisher h)
  approved := hinv.approved
  passed p hp := (honward _).passed _ (hinv.passed p hp)
  rising := hinv.rising

/-- A change of the database that is a frame for everyone. -/
theorem inv_frame_all (hinv : Inv formats s) (hframe : ∀ holder, Frame holder s.db db') : Inv formats { s with db := db' } :=
  inv_frame hinv (fun _ h => h) (hframe "").onward ((hframe "").ids hinv.ids) fun holder _ _ => hframe holder

/-- `holder` moves on, and nobody else does. -/
theorem inv_setPublisher {s : System} (hinv : Inv formats s) {holder : String} {publisher : Option Publisher}
    (hacquired : s.acquired holder ≠ none) (hsound : ∀ p, publisher = some p → Sound formats s.db holder p) :
    Inv formats (s.setPublisher holder publisher) where
  ids := hinv.ids
  acquired other p h := by
    by_cases heq : other = holder
    · rw [heq]
      exact hacquired
    · exact hinv.acquired other p (by simpa [System.setPublisher, Function.update_of_ne heq] using h)
  sound other p h := by
    by_cases heq : other = holder
    · subst heq
      exact hsound p (by simpa [System.setPublisher] using h)
    · exact hinv.sound other p (by simpa [System.setPublisher, Function.update_of_ne heq] using h)
  approved := hinv.approved
  passed := hinv.passed
  rising := hinv.rising

theorem inv_stop (hinv : Inv formats s) (holder : String) : Inv formats (s.setPublisher holder none) where
  ids := hinv.ids
  acquired other p h := by
    by_cases heq : other = holder
    · subst heq
      simp [System.setPublisher] at h
    · exact hinv.acquired other p (by simpa [System.setPublisher, Function.update_of_ne heq] using h)
  sound other p h := by
    by_cases heq : other = holder
    · subst heq
      simp [System.setPublisher] at h
    · exact hinv.sound other p (by simpa [System.setPublisher, Function.update_of_ne heq] using h)
  approved := hinv.approved
  passed := hinv.passed
  rising := hinv.rising

/-- A write under the holder's own fence, which is nobody else's. -/
theorem inv_own {s : System} (hinv : Inv formats s) {holder id : String} {nowMs : Int} {statement : Statement}
    (hfenced : statement.fenced = some (id, ⟨holder, nowMs⟩)) {publisher : Option Publisher}
    (hacquired : s.acquired holder ≠ none)
    (hsound : ∀ p, publisher = some p → Sound formats (execute lower s.db statement).1 holder p) :
    Inv formats ({ s with db := (execute lower s.db statement).1 }.setPublisher holder publisher) := by
  have hstopped := inv_stop hinv holder
  have hwritten : Inv formats { s.setPublisher holder none with db := (execute lower s.db statement).1 } := by
    refine inv_frame hstopped (fun _ h => h) (fun c => onward_execute lower statement)
      (ids_nodup_step hinv.ids (show Runs.Step lower s.db (.statement statement) _ from rfl)) ?_
    intro other p hp
    refine frame_execute fun id' fence hfenced' heq => ?_
    rw [hfenced] at hfenced'
    cases hfenced'
    subst heq
    simp [System.setPublisher] at hp
  have hset := @inv_setPublisher formats _ hwritten holder publisher hacquired hsound
  simpa [System.setPublisher, Function.update_idem] using hset

section
variable (hinv : Inv formats s) (hacquired : s.acquired holder ≠ none)
include hinv hacquired

theorem inv_readCandidate (read : Snapshot) (nowMs : Int) :
    Inv formats (readCandidate formats s holder publisher read nowMs) := by
  have hcompared : ∀ (db : Database) (candidate : Snapshot) (p : Publisher),
      (candidate.contract.map fun _ => { publisher with stage := .boundary candidate }) = some p → Sound formats db holder p := by
    intro db candidate p hp
    obtain ⟨_, -, rfl⟩ := Option.map_eq_some_iff.mp hp
    trivial
  unfold readCandidate
  dsimp only
  split
  · split
    · exact inv_setPublisher hinv hacquired (hcompared _ _)
    · exact inv_stop hinv holder
  · rename_i hnone
    have hown := fun p hp => @inv_own formats id s hinv holder publisher.run.id nowMs
      (.recordRunSnapshot publisher.run.id (formats.serializeSnapshot read) ⟨holder, nowMs⟩) rfl p hacquired hp
    split
    · exact hown _ (hcompared _ _)
    · exact hown _ fun _ h => nomatch h

theorem inv_readBoundary (candidate : Snapshot) : Inv formats (readBoundary s holder publisher candidate) := by
  unfold readBoundary
  split
  · exact inv_stop hinv holder
  · rename_i run hfind
    split
    · refine inv_setPublisher hinv hacquired ?_
      rintro p ⟨⟩
      -- Ids are keys: the row read is the only one of its id.
      intro now hnow hid _ _
      rw [run_eq_of_id hinv.ids hnow (List.mem_of_find?_eq_some hfind) hid]
      exact ⟨rfl, rfl⟩
    · exact inv_stop hinv holder

theorem inv_readEnvironment (hsteady : Steady s.db holder run) :
    Inv formats (readEnvironment formats s holder publisher candidate run) := by
  unfold readEnvironment
  split
  · exact inv_stop hinv holder
  · rename_i row hrow
    dsimp only
    split
    · rename_i classification hclassified
      refine inv_setPublisher hinv hacquired ?_
      rintro p ⟨⟩
      obtain ⟨published, hpublished, hclassify⟩ := Option.bind_eq_some_iff.mp hclassified
      exact ⟨hsteady, .inl hrow, published, hpublished, hclassify⟩
    · exact inv_stop hinv holder

end

theorem outcome_not_widening {changes : List AccessChange} (h : outcomeOf changes ≠ .widening) : NoneWidens changes := by
  intro change hchange hwidens
  apply h
  have hsome : changes.any (fun change => change.effect == .widens) = true :=
    List.any_eq_true.mpr ⟨change, hchange, by simp [hwidens]⟩
  have hne : changes.isEmpty = false := by
    rw [List.isEmpty_eq_false_iff_exists_mem]
    exact ⟨change, hchange⟩
  simp [outcomeOf, hsome, hne]

/-- What passes the gate in front of the compare-and-swap. -/
theorem approvedFor_of_gate {published : ActiveSnapshot} {classification : StoredClassification}
    (hpublished : approvedSnapshot formats row = some published)
    (hclassify : classify formats published candidate row = some classification) (hprotected : row.protected = true)
    (hgate : classification.outcome = .widening ∧ classification.protected = true →
      approves formats run classification = some true) :
    ApprovedFor formats run row candidate := by
  obtain ⟨changes, hchanges, heq⟩ := Option.bind_eq_some_iff.mp hclassify
  have hok : classifyAccess published.snapshot.toAccessSnapshot candidate.toAccessSnapshot = .ok changes := by
    cases hc : classifyAccess published.snapshot.toAccessSnapshot candidate.toAccessSnapshot with
    | error e => simp [hc, Except.toOption] at hchanges
    | ok found =>
      rw [hc] at hchanges
      cases hchanges
      rfl
  cases heq
  refine ⟨published, changes, hpublished, hok, ?_⟩
  by_cases hwidening : outcomeOf changes = .widening
  · have happroves := hgate ⟨hwidening, hprotected⟩
    unfold approves at happroves
    split at happroves
    · cases happroves
    · rename_i raw hraw
      obtain ⟨approval, hparsed, hdigests⟩ := Option.bind_eq_some_iff.mp happroves
      simp only [pure, Option.some.injEq, Bool.and_eq_true, beq_iff_eq] at hdigests
      exact .inr ⟨raw, approval, hraw, hparsed, hdigests.1, hdigests.2⟩
  · exact .inl (outcome_not_widening hwidening)

theorem inv_writeClassification (hinv : Inv formats s) (hacquired : s.acquired holder ≠ none)
    {classification : StoredClassification} {published : ActiveSnapshot} (hsteady : Steady s.db holder run)
    (hknown : Known s.db run.coordinate row) (hpublished : approvedSnapshot formats row = some published)
    (hclassify : classify formats (activeOf publisher.workspaceBaseline published) candidate row = some classification)
    (nowMs : Int) : Inv formats (writeClassification formats s holder publisher candidate run row classification nowMs) := by
  have hrecord : (classification.outcome = .widening ∧ classification.protected = true →
      approves formats run classification = some true) →
      Inv formats ({ s with db := (recordRunClassification s.db run.id (formats.serializeClassification classification)
        ⟨holder, nowMs⟩).1 }.setPublisher
        holder (if (recordRunClassification s.db run.id (formats.serializeClassification classification) ⟨holder, nowMs⟩).2 then
          some { publisher with stage := .recorded candidate run row } else none)) := by
    intro hgate
    refine @inv_own formats id s hinv holder run.id nowMs
      (.recordRunClassification run.id (formats.serializeClassification classification) ⟨holder, nowMs⟩) rfl _ hacquired ?_
    intro p hp
    split at hp
    · cases hp
      refine ⟨steady_recorded hsteady, hknown.onward (onward_execute id (.recordRunClassification _ _ _)), ?_⟩
      intro hprotected hbaseline
      rw [show publisher.workspaceBaseline = none from hbaseline] at hclassify
      exact approvedFor_of_gate hpublished hclassify hprotected hgate
    · cases hp
  unfold writeClassification
  dsimp only
  split
  · rename_i hwidening
    split
    · exact inv_stop hinv holder
    · rename_i happroves
      exact hrecord fun _ => happroves
    · exact @inv_own formats id s hinv holder run.id nowMs
        (.parkRunForApproval run.id (formats.serializeClassification classification) ⟨holder, nowMs⟩) rfl none hacquired
          fun _ h => nomatch h
  · rename_i hfree
    exact hrecord fun hwidening => absurd hwidening hfree

theorem inv_swap (hinv : Inv formats s) (hacquired : s.acquired holder ≠ none) (hsteady : Steady s.db holder run)
    (hknown : Known s.db run.coordinate row)
    (happroved : row.protected = true → publisher.workspaceBaseline = none → ApprovedFor formats run row candidate)
    (nowMs : Int) : Inv formats (swap formats s holder publisher candidate run row nowMs) := by
  have hown := fun p hp => @inv_own formats id s hinv holder run.id nowMs
    (.publishRunSnapshot run.id ⟨row.generation, row.protectionRevision⟩ (serializePublished formats candidate) ⟨holder, nowMs⟩)
      rfl p hacquired hp
  unfold swap
  dsimp only
  split
  · rename_i hswapped
    have hstopped := hown none fun _ h => nomatch h
    rcases publishRunSnapshot_cases s.db run.id ⟨row.generation, row.protectionRevision⟩ (serializePublished formats candidate)
      ⟨holder, nowMs⟩
      with ⟨hfailed, -⟩ | ⟨now, active, hfind, hactive, hgeneration, hheld, hrunning, -, heq⟩
    · rw [hfailed] at hswapped
      cases hswapped
    · have hid : now.id = run.id := by simpa using List.find?_some hfind
      obtain ⟨happroval, hcoordinate⟩ := hsteady now (List.mem_of_find?_eq_some hfind) hid hrunning (held_locks hheld)
      -- The compare-and-swap finds the row the candidate was compared with.
      have hrow : active = row := by
        rw [hcoordinate] at hactive
        rcases hknown with hsame | hpassed
        · rw [hactive] at hsame
          exact Option.some.inj hsame
        · have hlt := (passed_some hactive).mp hpassed
          exact absurd hgeneration (Nat.ne_of_gt hlt)
      subst hrow
      have hlist : ((s.db.runs.find? fun now => now.id == run.id).bind fun now =>
          (s.db.appEnvs now.coordinate).map fun active => (⟨now, active, candidate,
            publisher.workspaceBaseline⟩ : Publication)).toList =
          [⟨now, active, candidate, publisher.workspaceBaseline⟩] := by
        simp [hfind, hactive]
      rw [hlist]
      have hpassed : Passed (publishRunSnapshot s.db run.id ⟨active.generation, active.protectionRevision⟩
          (serializePublished formats candidate) ⟨holder, nowMs⟩).1 now.coordinate active.generation := by
        rw [heq]
        exact (passed_some (by simp [setAppEnv]; rfl)).mpr (Nat.lt_succ_self _)
      refine ⟨hstopped.ids, hstopped.acquired, hstopped.sound, ?_, ?_, ?_⟩
      · intro p hp
        rcases List.mem_append.mp hp with hp | hp
        · exact hinv.approved p hp
        · cases List.mem_singleton.mp hp
          intro hprotected hbaseline
          obtain ⟨published, changes, hpublished, hchanges, hdecided⟩ := happroved hprotected hbaseline
          refine ⟨published, changes, hpublished, hchanges, ?_⟩
          rwa [← happroval] at hdecided
      · intro p hp
        rcases List.mem_append.mp hp with hp | hp
        · exact hstopped.passed p hp
        · cases List.mem_singleton.mp hp
          exact hpassed
      · refine List.pairwise_append.mpr ⟨hinv.rising, List.pairwise_singleton _ _, ?_⟩
        intro p hp q hq hsame
        cases List.mem_singleton.mp hq
        have hlt := hinv.passed p hp
        rw [hsame] at hlt
        exact (passed_some hactive).mp hlt
  · refine hown _ ?_
    intro p hp
    split at hp
    · cases hp
      trivial
    · cases hp

theorem inv_advance (hinv : Inv formats s) (holder : String) (read : Snapshot) (nowMs : Int) :
    Inv formats (advance formats s holder read nowMs) := by
  unfold advance
  split
  · exact hinv
  · rename_i publisher hpublisher
    have hacquired := hinv.acquired holder publisher hpublisher
    have hsound := hinv.sound holder publisher hpublisher
    unfold Sound at hsound
    split
    · exact inv_readCandidate hinv hacquired read nowMs
    · exact inv_readBoundary hinv hacquired _
    · rename_i candidate run hstage
      rw [hstage] at hsound
      exact inv_readEnvironment hinv hacquired hsound
    · rename_i candidate run row classification hstage
      rw [hstage] at hsound
      obtain ⟨hsteady, hknown, published, hpublished, hclassify⟩ := hsound
      exact inv_writeClassification hinv hacquired hsteady hknown hpublished hclassify nowMs
    · rename_i candidate run row hstage
      rw [hstage] at hsound
      exact inv_swap hinv hacquired hsound.1 hsound.2.1 hsound.2.2 nowMs

theorem inv_step {s' : System} {event : Event} (hinv : Inv formats s) (h : Step formats lower s event s') : Inv formats s' := by
  obtain ⟨hallowed, rfl⟩ := h
  cases event with
  | statement statement =>
    refine inv_frame hinv (fun _ h => h) (fun c => onward_execute lower statement)
      (ids_nodup_step hinv.ids (show Runs.Step lower s.db (.statement statement) _ from rfl)) ?_
    intro holder publisher hpublisher
    refine frame_execute fun id fence hfenced heq => ?_
    have hfree := hallowed.2 id fence hfenced
    rw [heq, hpublisher] at hfree
    cases hfree
  | acquire key holder nowMs ttlMs =>
    have hfresh : s.acquired holder = none := hallowed
    refine inv_frame hinv ?_ (fun c => onward_acquire key holder nowMs ttlMs) ?_ ?_
    · intro other hother
      by_cases heq : other = holder
      · rw [heq, Function.update_self]
        simp
      · rwa [Function.update_of_ne heq]
    · rw [(acquire_rest s.db key holder nowMs ttlMs).1]
      exact hinv.ids
    · intro other publisher hpublisher
      refine frame_acquire fun heq => ?_
      rw [heq] at hfresh
      exact hinv.acquired other publisher hpublisher hfresh
  | renew key holder nowMs ttlMs => exact inv_frame_all hinv fun _ => frame_renew
  | release key holder => exact inv_frame_all hinv fun _ => frame_release
  | upsertAppEnv d expected => exact inv_frame_all hinv fun _ => frame_upsertAppEnv d expected
  | setAppEnvProtected d value fence => exact inv_frame_all hinv fun _ => frame_setAppEnvProtected d value fence
  | deleteAppEnv d expected => exact inv_frame_all hinv fun _ => frame_deleteAppEnv d expected
  | deleteApp app expected deleted => exact inv_frame_all hinv fun _ => frame_deleteApp app deleted
  | begin holder run workspaceBaseline =>
    refine inv_setPublisher hinv ?_ ?_
    · rw [hallowed.2]
      simp
    · rintro p ⟨⟩
      trivial
  | advance holder read nowMs => exact inv_advance hinv holder read nowMs
  | abandon holder => exact inv_stop hinv holder

theorem inv_initial : Inv formats initial where
  ids := List.nodup_nil
  acquired _ _ h := nomatch h
  sound _ _ h := nomatch h
  approved _ h := nomatch h
  passed _ h := nomatch h
  rising := .nil

/-! ## A deleted environment -/

theorem Onward.trans {db'' : Database} (h : Onward db db' c) (h' : Onward db' db'' c) : Onward db db'' c := by
  refine ⟨?_, fun generation hp => h'.passed _ (h.passed _ hp)⟩
  intro row hrow
  rcases h.kept row hrow with hkept | hpassed
  · exact h'.kept row hkept
  · exact .inr (h'.passed _ hpassed)

/-- A publication's step writes the database by one statement, or not at all. -/
theorem advance_db (formats : Formats) (s : System) (holder : String) (read : Snapshot) (nowMs : Int) :
    (advance formats s holder read nowMs).db = s.db ∨
      ∃ statement, (advance formats s holder read nowMs).db = (execute id s.db statement).1 := by
  unfold advance
  split
  · exact .inl rfl
  · split
    · unfold readCandidate
      dsimp only
      split
      · split
        · exact .inl rfl
        · exact .inl rfl
      · split
        · exact .inr ⟨.recordRunSnapshot _ _ _, rfl⟩
        · exact .inr ⟨.recordRunSnapshot _ _ _, rfl⟩
    · unfold readBoundary
      split
      · exact .inl rfl
      · split
        · exact .inl rfl
        · exact .inl rfl
    · unfold readEnvironment
      split
      · exact .inl rfl
      · dsimp only
        split
        · exact .inl rfl
        · exact .inl rfl
    · unfold writeClassification
      dsimp only
      split
      · split
        · exact .inl rfl
        · exact .inr ⟨.recordRunClassification _ _ _, rfl⟩
        · exact .inr ⟨.parkRunForApproval _ _ _, rfl⟩
      · exact .inr ⟨.recordRunClassification _ _ _, rfl⟩
    · unfold swap
      dsimp only
      split
      · exact .inr ⟨.publishRunSnapshot _ _ _ _, rfl⟩
      · exact .inr ⟨.publishRunSnapshot _ _ _ _, rfl⟩

theorem onward_next (s : System) (event : Event) : Onward s.db (next formats lower s event).db c := by
  have hsame : Onward s.db s.db c := onward_same rfl fun _ h => h
  cases event with
  | statement statement => exact onward_execute lower statement
  | acquire key holder nowMs ttlMs => exact onward_acquire key holder nowMs ttlMs
  | renew key holder nowMs ttlMs => exact (frame_renew : Frame holder s.db (Runs.renew s.db key holder nowMs ttlMs).1).onward c
  | release key holder => exact (frame_release : Frame holder s.db (Runs.release s.db key holder)).onward c
  | upsertAppEnv d expected => exact onward_upsertAppEnv d expected
  | setAppEnvProtected d value fence => exact onward_setAppEnvProtected d value fence
  | deleteAppEnv d expected => exact onward_deleteAppEnv d expected
  | deleteApp app expected deleted => exact onward_deleteApp app deleted
  | begin holder run workspaceBaseline => exact hsame
  | abandon holder => exact hsame
  | advance holder read nowMs =>
    rcases advance_db formats s holder read nowMs with heq | ⟨statement, heq⟩
    · rw [next, heq]
      exact hsame
    · rw [next, heq]
      exact onward_execute id statement

theorem onward_run {s' : System} {evs : List Event} (h : Run (Step formats lower) s evs s') : Onward s.db s'.db c := by
  induction h with
  | nil => exact onward_same rfl fun _ h => h
  | @snoc _ mid last event _ hstep ih =>
    rw [hstep.2]
    exact ih.trans (onward_next mid event)

/-- What a compare-and-swap at a generation that has passed answers. -/
theorem swap_refused {id : String} {expected : Expected} (snapshotJson : String) (fence : LeaseFence)
    (hfind : (db.runs.find? fun run => run.id == id) = some run) (h : Passed db run.coordinate expected.generation) :
    (publishRunSnapshot db id expected snapshotJson fence).2 = false := by
  rcases publishRunSnapshot_cases db id expected snapshotJson fence with ⟨hfailed, -⟩ | ⟨found, row, hfound, hrow, hgeneration, -⟩
  · exact hfailed
  · rw [hfind] at hfound
    cases hfound
    have hlt := (passed_some hrow).mp h
    exact absurd hgeneration (Nat.ne_of_gt hlt)

/-- In every interleaving: what is published on a protected environment was compared with the
    snapshot active at that instant and widens nothing, or the run's approval is of exactly these
    two; an environment is never published twice at one generation; and a compare-and-swap
    prepared against an environment that is deleted since fails ever after. -/
theorem publications_approved {s : System} {evs : List Event} (h : Run (Step formats lower) initial evs s) :
    (∀ p ∈ s.published, p.row.protected = true → p.workspaceBaseline = none → ApprovedFor formats p.run p.row p.candidate) ∧
    (s.published.Pairwise fun p q => p.run.coordinate = q.run.coordinate → p.row.generation < q.row.generation) ∧
    ∀ c row, s.db.appEnvs c = some row → ∀ evs' deleted, Run (Step formats lower) s evs' deleted → deleted.db.appEnvs c = none →
      ∀ evs'' later, Run (Step formats lower) deleted evs'' later →
        ∀ id run, (later.db.runs.find? fun run => run.id == id) = some run → run.coordinate = c →
          ∀ revision snapshotJson fence,
            (publishRunSnapshot later.db id ⟨row.generation, revision⟩ snapshotJson fence).2 = false := by
  have hinv : Inv formats s := h.invariant inv_initial fun _ _ _ => inv_step
  refine ⟨hinv.approved, hinv.rising, ?_⟩
  intro c row hrow evs' deleted hdeleted hgone evs'' later hlater id run hfind hcoordinate revision snapshotJson fence
  have hpassed : Passed deleted.db c row.generation := by
    rcases (onward_run hdeleted).kept row hrow with hkept | hpassed
    · rw [hgone] at hkept
      cases hkept
    · exact hpassed
  refine swap_refused snapshotJson fence hfind ?_
  rw [hcoordinate]
  exact (onward_run hlater).passed _ hpassed

/-! ## An approved widening -/

/-- Enough for an event to be allowed, where it is checked by evaluation. -/
def plain (s : System) : Event → Bool
  | .statement (.publishRunSnapshot _ _ _ _) => false
  | .statement statement => statement.fenced.all fun fenced => (s.publishers fenced.2.holder).isNone
  | .acquire _ holder _ _ => (s.acquired holder).isNone
  | .deleteApp _ _ _ => false
  | .begin holder run _ => (s.publishers holder).isNone && s.acquired holder == some (runLeaseKey run.coordinate)
  | _ => true

theorem plain_allowed {event : Event} (h : plain s event = true) : Allowed s event := by
  cases event with
  | statement statement =>
    refine ⟨?_, ?_⟩
    · rintro id expected json fence rfl
      cases h
    · intro id fence hfenced
      cases statement with
      | publishRunSnapshot => cases h
      | createRun => cases hfenced
      | requestRunCancellation => cases hfenced
      | _ =>
        cases hfenced
        simpa [plain, Statement.fenced] using h
  | acquire key holder nowMs ttlMs => exact Option.isNone_iff_eq_none.mp h
  | deleteApp app expected deleted => cases h
  | begin holder run workspaceBaseline =>
    simp only [plain, Bool.and_eq_true, Option.isNone_iff_eq_none, beq_iff_eq] at h
    exact h
  | _ => trivial

def plainRun (formats : Formats) (s : System) : List Event → Bool
  | [] => true
  | event :: rest => plain s event && plainRun formats (next formats id s event) rest

theorem run_of_plain {evs : List Event} (h : plainRun formats s evs = true) :
    Run (Step formats id) s evs (evs.foldl (next formats id) s) := by
  suffices hsuffices : ∀ (done : List Event) (start mid : System), Run (Step formats id) start done mid →
      plainRun formats mid evs = true → Run (Step formats id) start (done ++ evs) (evs.foldl (next formats id) mid) from
    hsuffices [] s s .nil h
  clear h
  induction evs with
  | nil =>
    intro done start mid hrun _
    simpa using hrun
  | cons event rest ih =>
    intro done start mid hrun h
    simp only [plainRun, Bool.and_eq_true] at h
    have hmore := ih (done ++ [event]) start _ (hrun.snoc ⟨plain_allowed h.1, rfl⟩) h.2
    rwa [List.append_assoc] at hmore

def notes : Snapshot := { contract := some { app := "notes" } , databaseCode := [⟨"view", "recent", "0001.sql"⟩] }

/-- One candidate, stored under its name; an approval is stored as the two digests it names. -/
def notesFormats : Formats where
  parseSnapshot raw := if raw = "notes" then some notes else none
  serializeSnapshot _ := "notes"
  snapshotDigest snapshot := if snapshot.contract.isSome then "sha256:notes" else "sha256:empty"
  parseApproval raw :=
    if raw = "approve notes after empty" then some ⟨"user:1", "Ada", 7, "sha256:notes", "sha256:empty"⟩ else none
  serializeClassification classification := classification.candidateDigest ++ " after " ++ classification.baselineDigest

def notesRun : CreateRun :=
  { id := "r1", appId := "notes", env := "prod", ref := "refs/heads/main", commitSha := none, trigger := .manual,
    actor := "user:1", lane := none }

/-- The run is started under a holder, publishes as far as it may, and its lease is released. -/
def deploy (holder : String) (run : RunRow) (at' : Int) : List Event :=
  [.acquire "notes:prod" holder at' 90, .statement (.markRunStarted "r1" "runs/r1" at' ⟨holder, at'⟩), .begin holder run none] ++
    List.replicate 5 (.advance holder notes at') ++ [.release "notes:prod" holder]

/-- `prod` is protected: the first deploy parks, a human approves, the second publishes. -/
def approvedDeploy : List Event :=
  [.upsertAppEnv ("notes", "prod") none, .statement (.createRun notesRun 0)] ++ deploy "h1" (newRun notesRun 0) 1 ++
    [.acquire "notes:prod" "h2" 5 90,
      .statement (.approveParkedRun "r1" "sha256:notes after sha256:empty" "approve notes after empty" ⟨"h2", 6⟩),
      .release "notes:prod" "h2"] ++ deploy "h3" { newRun notesRun 0 with snapshotJson := some "notes" } 8

def deployed : System := approvedDeploy.foldl (next notesFormats id) initial

theorem a_widening_is_published_as_approved :
    (deployed.published.map fun p => (p.row.protected, p.workspaceBaseline.isNone, p.run.approvalJson)) =
        [(true, true, some "approve notes after empty")] ∧
      ∀ p ∈ deployed.published, ApprovedFor notesFormats p.run p.row p.candidate := by
  have hpublished : (deployed.published.map fun p => (p.row.protected, p.workspaceBaseline.isNone, p.run.approvalJson)) =
      [(true, true, some "approve notes after empty")] := by decide
  refine ⟨hpublished, ?_⟩
  intro p hp
  have hfields :=
    List.mem_map_of_mem (f := fun p : Publication => (p.row.protected, p.workspaceBaseline.isNone, p.run.approvalJson)) hp
  rw [hpublished, List.mem_singleton] at hfields
  simp only [Prod.mk.injEq, Option.isNone_iff_eq_none] at hfields
  exact (publications_approved (run_of_plain (by decide))).1 p hp hfields.1 hfields.2.1

end Fabrika.Control.Publish
