/-
  Fabrika.Control.RunsProofs — the lifecycle of a run over every sequence of statements (see
  `Fabrika.Control.Runs`).

  `Wrote` says once what each statement does to a row it matches, guards included, and
  `execute_rows` that a statement does nothing else to the table. The lifecycle then follows by
  cases on `Wrote`: the status only moves along `Edge`, what is settled stays (`Later`), and a
  cancellation request stops every statement but the one that settles it.
-/

import Fabrika.Control.Runs
import Mathlib.Data.List.Nodup
import Mathlib.Logic.Function.Iterate

namespace Fabrika.Control.Runs

open Fabrika.Lib

variable {lower : String → String} {db : Database}

/-! ## What a statement writes -/

/-- The fence holds the run's own lease, which has not expired. -/
def Held (db : Database) (run : RunRow) (fence : LeaseFence) : Prop := holdsKey db (runLeaseKey run.coordinate) fence = true

inductive Wrote (lower : String → String) (db : Database) (run : RunRow) : Statement → RunRow → Prop
  | externalId {externalRunId : String} {providerState : Option String} {fence : LeaseFence} (held : Held db run fence)
      (running : run.status = .running) (unset : run.externalRunId = none) :
      Wrote lower db run (.recordInitialRunExternalId run.id externalRunId providerState fence)
        { run with externalRunId := some externalRunId, providerStateJson := providerState <|> run.providerStateJson }
  | checkpoint {providerState : String} {fence : LeaseFence} (held : Held db run fence) (running : run.status = .running)
      (active : run.cancelRequestedAt = none) :
      Wrote lower db run (.checkpointRunProviderState run.id providerState fence)
        { run with providerStateJson := some providerState }
  | started {logKey : String} {now : Int} {fence : LeaseFence} (held : Held db run fence) (pending : run.status = .pending)
      (active : run.cancelRequestedAt = none)
      (alone : ∀ other ∈ db.runs, other.coordinate = run.coordinate → other.status = .running → other.id = run.id)
      (newest : ∀ newer ∈ db.runs, supersedes newer run = false) :
      Wrote lower db run (.markRunStarted run.id logKey now fence)
        { run with status := .running, startedAt := some now, logKey := some logKey }
  | superseded {newer : String} {now : Int} {fence : LeaseFence} (held : Held db run fence) (pending : run.status = .pending)
      (active : run.cancelRequestedAt = none) :
      Wrote lower db run (.markRunSuperseded run.id newer now fence)
        { run with status := .failed, finishedAt := some now, supersededBy := some newer }
  | commit {commitSha : String} {fence : LeaseFence} (held : Held db run fence) (running : run.status = .running)
      (active : run.cancelRequestedAt = none) (same : ∀ c, run.commitSha = some c → commitSha = lower c) :
      Wrote lower db run (.setRunCommit run.id commitSha fence) { run with commitSha := some commitSha }
  | barrier {installs : Bool} {fence : LeaseFence} (held : Held db run fence) (running : run.status = .running)
      (active : run.cancelRequestedAt = none) :
      Wrote lower db run (.recordRunMigrationBarrier run.id installs fence)
        { run with migrationBarrier := some (if installs then 1 else 0) }
  | snapshot {snapshotJson : String} {fence : LeaseFence} (held : Held db run fence) (running : run.status = .running)
      (active : run.cancelRequestedAt = none) :
      Wrote lower db run (.recordRunSnapshot run.id snapshotJson fence) { run with snapshotJson := some snapshotJson }
  | classification {classificationJson : String} {fence : LeaseFence} (held : Held db run fence) (running : run.status = .running)
      (active : run.cancelRequestedAt = none) :
      Wrote lower db run (.recordRunClassification run.id classificationJson fence)
        { run with classificationJson := some classificationJson }
  | parked {classificationJson : String} {fence : LeaseFence} (held : Held db run fence) (running : run.status = .running)
      (active : run.cancelRequestedAt = none) :
      Wrote lower db run (.parkRunForApproval run.id classificationJson fence)
        { run with status := .awaitingApproval, classificationJson := some classificationJson }
  | approved {classificationJson approvalJson : String} {fence : LeaseFence} (held : Held db run fence)
      (waiting : run.status = .awaitingApproval) (active : run.cancelRequestedAt = none)
      (shown : run.classificationJson = some classificationJson) :
      Wrote lower db run (.approveParkedRun run.id classificationJson approvalJson fence)
        { run with status := .pending, approvalJson := some approvalJson }
  | rejected {classificationJson : String} {now : Int} {fence : LeaseFence} (held : Held db run fence)
      (waiting : run.status = .awaitingApproval) (active : run.cancelRequestedAt = none) :
      Wrote lower db run (.rejectParkedRun run.id classificationJson now fence)
        { run with status := .failed, finishedAt := some now, approvalJson := none }
  | cancellation {now : Int} (open' : run.status.terminal = false) :
      Wrote lower db run (.requestRunCancellation run.id now)
        { run with cancelRequestedAt := run.cancelRequestedAt <|> some now }
  | finished {outcome : RunOutcome} {exitCode : Option Int} {now : Int} {fence : LeaseFence} (held : Held db run fence)
      (open' : run.status = .pending ∨ run.status = .running) (active : run.cancelRequestedAt = none) :
      Wrote lower db run (.markRunFinished run.id outcome exitCode now fence)
        { run with status := outcome.status, exitCode, finishedAt := some now }
  | cancelled {outcome : RunOutcome} {now : Int} {fence : LeaseFence} (held : Held db run fence)
      (open' : run.status.terminal = false) (requested : run.cancelRequestedAt.isSome) :
      Wrote lower db run (.markRunCancellationFinished run.id outcome now fence)
        { run with
          status := outcome.status, exitCode := none, finishedAt := some now
          approvalJson := if run.status = .awaitingApproval then none else run.approvalJson }

variable {run' run : RunRow} {fence : LeaseFence} {s : Statement} {event : Event}

theorem mem_updateRun {id : String} {guard : RunRow → Bool} {set : RunRow → RunRow}
    (h : run' ∈ (updateRun db id guard set).1.runs) :
    ∃ run ∈ db.runs, run' = run ∨ run.id = id ∧ guard run = true ∧ run' = set run := by
  obtain ⟨run, hrun, heq⟩ := List.mem_map.mp h
  refine ⟨run, hrun, ?_⟩
  by_cases hmatch : (run.id == id && guard run) = true
  · rw [if_pos hmatch] at heq
    rw [Bool.and_eq_true, beq_iff_eq] at hmatch
    exact .inr ⟨hmatch.1, hmatch.2, heq.symm⟩
  · rw [if_neg hmatch] at heq
    exact .inl heq.symm

section
variable {id : String} {guard : RunRow → Bool} {set : RunRow → RunRow}
variable (h : run' ∈ (mutateRun db id guard set fence).1.runs)
include h

theorem mem_mutateRun : ∃ run ∈ db.runs, run' = run ∨ run.id = id ∧ guard run = true ∧ Held db run fence ∧ run' = set run := by
  obtain ⟨run, hrun, hsame | ⟨hid, hguard, hset⟩⟩ := mem_updateRun h
  · exact ⟨run, hrun, .inl hsame⟩
  · rw [Bool.and_eq_true] at hguard
    exact ⟨run, hrun, .inr ⟨hid, hguard.1, hguard.2, hset⟩⟩

/-- A fenced update leaves a row or writes it, guards checked. -/
theorem wrote_of_mutateRun (hwrote : ∀ run, run.id = id → guard run = true → Held db run fence → Wrote lower db run s (set run)) :
    ∃ run ∈ db.runs, run' = run ∨ Wrote lower db run s run' := by
  obtain ⟨run, hrun, hsame | ⟨hid, hguard, hheld, rfl⟩⟩ := mem_mutateRun h
  · exact ⟨run, hrun, .inl hsame⟩
  · exact ⟨run, hrun, .inr (hwrote run hid hguard hheld)⟩

end

@[simp] theorem ensureProtection_runs (c : Coordinate) : (ensureProtection db c).runs = db.runs := by
  unfold ensureProtection
  split <;> rfl

@[simp] theorem ensureProtection_locks (c : Coordinate) : (ensureProtection db c).locks = db.locks := by
  unfold ensureProtection
  split <;> rfl

@[simp] theorem ensureProtection_appEnvs (c : Coordinate) : (ensureProtection db c).appEnvs = db.appEnvs := by
  unfold ensureProtection
  split <;> rfl

theorem publishRunSnapshot_runs {id : String} {expected : Expected} {snapshotJson : String} :
    (publishRunSnapshot db id expected snapshotJson fence).1.runs = db.runs := by
  unfold publishRunSnapshot
  split
  · rfl
  · dsimp only
    split
    · exact ensureProtection_runs _
    · split
      · exact ensureProtection_runs _
      · exact ensureProtection_runs _

/-- The row a new run starts as. -/
def newRun (input : CreateRun) (now : Int) : RunRow :=
  ⟨input.id, input.appId, input.env, input.ref, input.commitSha, input.trigger, .pending, none, none, now, none, none, none, none,
    none, some input.actor, none, none, none, none, none, input.lane⟩

/-- A statement inserts a new run, or leaves each row or writes it as `Wrote` says. -/
theorem execute_rows (h : run' ∈ (execute lower db s).1.runs) :
    (∃ input now, s = .createRun input now ∧ (∀ run ∈ db.runs, run.id ≠ input.id) ∧ run' = newRun input now) ∨
      ∃ run ∈ db.runs, run' = run ∨ Wrote lower db run s run' := by
  cases s with
  | createRun input now =>
    simp only [execute, createRun] at h
    split at h
    · exact .inr ⟨run', h, .inl rfl⟩
    · rename_i hfree
      rcases List.mem_append.mp h with h | h
      · exact .inr ⟨run', h, .inl rfl⟩
      · refine .inl ⟨input, now, rfl, ?_, List.mem_singleton.mp h⟩
        simpa using hfree
  | publishRunSnapshot id expected snapshotJson fence =>
    rw [execute, publishRunSnapshot_runs] at h
    exact .inr ⟨run', h, .inl rfl⟩
  | requestRunCancellation id now =>
    obtain ⟨run, hrun, hsame | ⟨rfl, hguard, rfl⟩⟩ := mem_updateRun h
    · exact .inr ⟨run, hrun, .inl hsame⟩
    · exact .inr ⟨run, hrun, .inr (.cancellation (by simpa using hguard))⟩
  | markRunStarted id logKey now fence =>
    refine .inr (wrote_of_mutateRun h ?_)
    rintro run rfl hguard hheld
    simp only [Bool.and_eq_true, beq_iff_eq, Option.isNone_iff_eq_none, Bool.not_eq_true', List.any_eq_false, bne_iff_ne, ne_eq,
      Bool.not_eq_true] at hguard
    refine .started hheld hguard.1.1.1 hguard.1.1.2 ?_ hguard.2
    intro other hother hcoordinate hrunning
    by_contra hne
    exact hguard.1.2 other hother ⟨⟨hcoordinate, hrunning⟩, hne⟩
  | setRunCommit id commitSha fence =>
    refine .inr (wrote_of_mutateRun h ?_)
    rintro run rfl hguard hheld
    simp only [Bool.and_eq_true, Bool.or_eq_true, beq_iff_eq, Option.isNone_iff_eq_none] at hguard
    refine .commit hheld hguard.1.1 hguard.1.2 ?_
    intro c hc
    rcases hguard.2 with hnone | hlower
    · rw [hnone] at hc
      cases hc
    · rw [hc] at hlower
      exact (Option.some.inj hlower).symm
  | recordInitialRunExternalId id externalRunId providerState fence =>
    refine .inr (wrote_of_mutateRun h ?_)
    rintro run rfl hguard hheld
    simp only [Bool.and_eq_true, beq_iff_eq, Option.isNone_iff_eq_none] at hguard
    exact .externalId hheld hguard.1 hguard.2
  | checkpointRunProviderState id providerState fence =>
    refine .inr (wrote_of_mutateRun h ?_)
    rintro run rfl hguard hheld
    simp only [Bool.and_eq_true, beq_iff_eq, Option.isNone_iff_eq_none] at hguard
    exact .checkpoint hheld hguard.1.1 hguard.1.2
  | markRunSuperseded id supersededBy now fence =>
    refine .inr (wrote_of_mutateRun h ?_)
    rintro run rfl hguard hheld
    simp only [Bool.and_eq_true, beq_iff_eq, Option.isNone_iff_eq_none] at hguard
    exact .superseded hheld hguard.1.1 hguard.1.2
  | recordRunMigrationBarrier id installs fence =>
    refine .inr (wrote_of_mutateRun h ?_)
    rintro run rfl hguard hheld
    simp only [Bool.and_eq_true, beq_iff_eq, Option.isNone_iff_eq_none] at hguard
    exact .barrier hheld hguard.1 hguard.2
  | recordRunSnapshot id snapshotJson fence =>
    refine .inr (wrote_of_mutateRun h ?_)
    rintro run rfl hguard hheld
    simp only [Bool.and_eq_true, beq_iff_eq, Option.isNone_iff_eq_none] at hguard
    exact .snapshot hheld hguard.1 hguard.2
  | recordRunClassification id classificationJson fence =>
    refine .inr (wrote_of_mutateRun h ?_)
    rintro run rfl hguard hheld
    simp only [Bool.and_eq_true, beq_iff_eq, Option.isNone_iff_eq_none] at hguard
    exact .classification hheld hguard.1 hguard.2
  | parkRunForApproval id classificationJson fence =>
    refine .inr (wrote_of_mutateRun h ?_)
    rintro run rfl hguard hheld
    simp only [Bool.and_eq_true, beq_iff_eq, Option.isNone_iff_eq_none] at hguard
    exact .parked hheld hguard.1 hguard.2
  | approveParkedRun id classificationJson approvalJson fence =>
    refine .inr (wrote_of_mutateRun h ?_)
    rintro run rfl hguard hheld
    simp only [Bool.and_eq_true, beq_iff_eq, Option.isNone_iff_eq_none] at hguard
    exact .approved hheld hguard.1.1 hguard.1.2 hguard.2
  | rejectParkedRun id classificationJson now fence =>
    refine .inr (wrote_of_mutateRun h ?_)
    rintro run rfl hguard hheld
    simp only [Bool.and_eq_true, beq_iff_eq, Option.isNone_iff_eq_none] at hguard
    exact .rejected hheld hguard.1.1 hguard.1.2
  | markRunFinished id outcome exitCode now fence =>
    refine .inr (wrote_of_mutateRun h ?_)
    rintro run rfl hguard hheld
    simp only [Bool.and_eq_true, Bool.or_eq_true, beq_iff_eq, Option.isNone_iff_eq_none] at hguard
    exact .finished hheld hguard.1 hguard.2
  | markRunCancellationFinished id outcome now fence =>
    refine .inr (wrote_of_mutateRun h ?_)
    rintro run rfl hguard hheld
    simp only [Bool.and_eq_true, Bool.not_eq_true'] at hguard
    exact .cancelled hheld hguard.1 hguard.2

/-! ## Every row is kept -/

theorem Wrote.id (h : Wrote lower db run s run') : run'.id = run.id := by
  cases h <;> rfl

theorem updateRun_ids {id : String} {guard : RunRow → Bool} {set : RunRow → RunRow} (hid : ∀ run, (set run).id = run.id) :
    (updateRun db id guard set).1.runs.map RunRow.id = db.runs.map RunRow.id := by
  simp only [updateRun, List.map_map]
  congr 1
  funext run
  simp only [Function.comp]
  split
  · exact hid run
  · rfl

/-- No statement removes a row or repeats an id. -/
theorem execute_ids (lower : String → String) (db : Database) (s : Statement) :
    (execute lower db s).1.runs.map RunRow.id = db.runs.map RunRow.id ∨
    ∃ id, id ∉ db.runs.map RunRow.id ∧ (execute lower db s).1.runs.map RunRow.id = db.runs.map RunRow.id ++ [id] := by
  cases s with
  | createRun input now =>
    simp only [execute, createRun]
    split
    · exact .inl rfl
    · rename_i hfree
      refine .inr ⟨input.id, ?_, by simp⟩
      intro hmem
      obtain ⟨run, hrun, hid⟩ := List.mem_map.mp hmem
      exact hfree (List.any_eq_true.mpr ⟨run, hrun, beq_iff_eq.mpr hid⟩)
  | publishRunSnapshot id expected snapshotJson fence => exact .inl (by rw [execute, publishRunSnapshot_runs])
  | _ => exact .inl (updateRun_ids fun _ => rfl)

theorem ids_nodup_step {db' : Database} (hids : (db.runs.map RunRow.id).Nodup) (h : Step lower db event db') :
    (db'.runs.map RunRow.id).Nodup := by
  subst h
  cases event with
  | statement s =>
    rcases execute_ids lower db s with hsame | ⟨id, hnew, hsame⟩
    · rw [next, hsame]
      exact hids
    · rw [next, hsame]
      exact List.nodup_append.mpr ⟨hids, by simp, by simpa using hnew⟩
  | acquire key holder nowMs ttlMs =>
    simp only [next, acquire]
    split
    · exact hids
    · split <;> exact hids
  | renew key holder nowMs ttlMs =>
    simp only [next, renew]
    split
    · split <;> exact hids
    · exact hids
  | release key holder =>
    simp only [next, release]
    split
    · split <;> exact hids
    · exact hids

/-! ## The lifecycle -/

/-- How a run moves. -/
inductive Edge : RunStatus → RunStatus → Prop
  | start : Edge .pending .running
  | park : Edge .running .awaitingApproval
  | approve : Edge .awaitingApproval .pending
  | finish {status : RunStatus} (outcome : RunOutcome) (open' : status.terminal = false) : Edge status outcome.status

/-- What stays of a run for good: its place, and whatever is settled. -/
structure Later (lower : String → String) (run run' : RunRow) : Prop where
  id : run'.id = run.id
  coordinate : run'.coordinate = run.coordinate
  lane : run'.lane = run.lane
  terminal : run.status.terminal = true → run' = run
  external : ∀ x, run.externalRunId = some x → run'.externalRunId = some x
  /-- A commit changes only by `LOWER`, any number of times. -/
  commit : ∀ c, run.commitSha = some c → ∃ n, run'.commitSha = some (Nat.iterate lower n c)
  cancel : ∀ at', run.cancelRequestedAt = some at' → run'.cancelRequestedAt = some at'

theorem Later.refl (run : RunRow) : Later lower run run :=
  ⟨rfl, rfl, rfl, fun _ => rfl, fun _ h => h, fun _ h => ⟨0, h⟩, fun _ h => h⟩

theorem Later.trans {a b c : RunRow} (hab : Later lower a b) (hbc : Later lower b c) : Later lower a c := by
  refine ⟨hbc.id.trans hab.id, hbc.coordinate.trans hab.coordinate, hbc.lane.trans hab.lane, ?_, ?_, ?_, ?_⟩
  · intro h
    have hb := hab.terminal h
    rw [hbc.terminal (by rw [hb]; exact h), hb]
  · intro x hx
    exact hbc.external x (hab.external x hx)
  · intro sha hsha
    obtain ⟨n, hn⟩ := hab.commit sha hsha
    obtain ⟨m, hm⟩ := hbc.commit _ hn
    exact ⟨m + n, by rw [hm, Function.iterate_add_apply]⟩
  · intro at' h
    exact hbc.cancel at' (hab.cancel at' h)

theorem Wrote.later {run run' : RunRow} {s : Statement} (h : Wrote lower db run s run') : Later lower run run' := by
  cases h with
  | externalId held running unset =>
    refine ⟨rfl, rfl, rfl, by simp [running, RunStatus.terminal], ?_, fun _ h => ⟨0, h⟩, fun _ h => h⟩
    intro x hx
    rw [unset] at hx
    cases hx
  | commit held running active same =>
    refine ⟨rfl, rfl, rfl, by simp [running, RunStatus.terminal], fun _ h => h, ?_, fun _ h => h⟩
    intro c hc
    exact ⟨1, congrArg some (same c hc)⟩
  | cancellation open' =>
    refine ⟨rfl, rfl, rfl, by simp [open'], fun _ h => h, fun _ h => ⟨0, h⟩, ?_⟩
    intro at' h
    simp [h]
  | checkpoint held running active =>
    exact ⟨rfl, rfl, rfl, by simp [running, RunStatus.terminal], fun _ h => h, fun _ h => ⟨0, h⟩, fun _ h => h⟩
  | started held pending active alone newest =>
    exact ⟨rfl, rfl, rfl, by simp [pending, RunStatus.terminal], fun _ h => h, fun _ h => ⟨0, h⟩, fun _ h => h⟩
  | superseded held pending active =>
    exact ⟨rfl, rfl, rfl, by simp [pending, RunStatus.terminal], fun _ h => h, fun _ h => ⟨0, h⟩, fun _ h => h⟩
  | barrier held running active =>
    exact ⟨rfl, rfl, rfl, by simp [running, RunStatus.terminal], fun _ h => h, fun _ h => ⟨0, h⟩, fun _ h => h⟩
  | snapshot held running active =>
    exact ⟨rfl, rfl, rfl, by simp [running, RunStatus.terminal], fun _ h => h, fun _ h => ⟨0, h⟩, fun _ h => h⟩
  | classification held running active =>
    exact ⟨rfl, rfl, rfl, by simp [running, RunStatus.terminal], fun _ h => h, fun _ h => ⟨0, h⟩, fun _ h => h⟩
  | parked held running active =>
    exact ⟨rfl, rfl, rfl, by simp [running, RunStatus.terminal], fun _ h => h, fun _ h => ⟨0, h⟩, fun _ h => h⟩
  | approved held waiting active shown =>
    exact ⟨rfl, rfl, rfl, by simp [waiting, RunStatus.terminal], fun _ h => h, fun _ h => ⟨0, h⟩, fun _ h => h⟩
  | rejected held waiting active =>
    exact ⟨rfl, rfl, rfl, by simp [waiting, RunStatus.terminal], fun _ h => h, fun _ h => ⟨0, h⟩, fun _ h => h⟩
  | finished held open' active =>
    refine ⟨rfl, rfl, rfl, ?_, fun _ h => h, fun _ h => ⟨0, h⟩, fun _ h => h⟩
    rcases open' with h | h <;> simp [h, RunStatus.terminal]
  | cancelled held open' requested => exact ⟨rfl, rfl, rfl, by simp [open'], fun _ h => h, fun _ h => ⟨0, h⟩, fun _ h => h⟩

theorem Wrote.edge (h : Wrote lower db run s run') : run'.status = run.status ∨ Edge run.status run'.status := by
  cases h with
  | started held pending active alone newest => exact .inr (pending ▸ .start)
  | superseded held pending active => exact .inr (.finish .failed (by rw [pending]; rfl))
  | parked held running active => exact .inr (running ▸ .park)
  | approved held waiting active shown => exact .inr (waiting ▸ .approve)
  | rejected held waiting active => exact .inr (.finish .failed (by rw [waiting]; rfl))
  | finished held open' active =>
    refine .inr (.finish _ ?_)
    rcases open' with h | h <;> rw [h] <;> rfl
  | cancelled held open' requested => exact .inr (.finish _ open')
  | _ => exact .inl rfl

/-- A run becomes `running` only alone in its environment and newer than every success of its lane. -/
theorem Wrote.starts (h : Wrote lower db run s run') (hwas : run.status ≠ .running) (hnow : run'.status = .running) :
    (∀ other ∈ db.runs, other.coordinate = run.coordinate → other.status = .running → other.id = run.id) ∧
      ∀ newer ∈ db.runs, supersedes newer run = false := by
  cases h with
  | started held pending active alone newest => exact ⟨alone, newest⟩
  | externalId held running unset => exact absurd running hwas
  | checkpoint held running active => exact absurd running hwas
  | commit held running active same => exact absurd running hwas
  | barrier held running active => exact absurd running hwas
  | snapshot held running active => exact absurd running hwas
  | classification held running active => exact absurd running hwas
  | cancellation open' => exact absurd hnow hwas
  | superseded held pending active => cases hnow
  | parked held running active => cases hnow
  | approved held waiting active shown => cases hnow
  | rejected held waiting active => cases hnow
  | @finished outcome _ _ _ held open' active => cases outcome <;> cases hnow
  | @cancelled outcome _ _ held open' requested => cases outcome <;> cases hnow

/-- Of a run whose cancellation is requested only what the provider reserved is recorded, until
    `markRunCancellationFinished` settles it. -/
theorem Wrote.cancelled_only (h : Wrote lower db run s run') (hcancel : run.cancelRequestedAt.isSome) :
    (∃ outcome now fence, s = .markRunCancellationFinished run.id outcome now fence) ∨
      run'.status = run.status ∧ run'.approvalJson = run.approvalJson ∧ run'.finishedAt = run.finishedAt := by
  have hno : run.cancelRequestedAt ≠ none := by
    intro hnone
    rw [hnone] at hcancel
    cases hcancel
  cases h with
  | externalId held running unset => exact .inr ⟨rfl, rfl, rfl⟩
  | cancellation open' => exact .inr ⟨rfl, rfl, rfl⟩
  | cancelled held open' requested => exact .inl ⟨_, _, _, rfl⟩
  | checkpoint held running active => exact absurd active hno
  | started held pending active alone newest => exact absurd active hno
  | superseded held pending active => exact absurd active hno
  | commit held running active same => exact absurd active hno
  | barrier held running active => exact absurd active hno
  | snapshot held running active => exact absurd active hno
  | classification held running active => exact absurd active hno
  | parked held running active => exact absurd active hno
  | approved held waiting active shown => exact absurd active hno
  | rejected held waiting active => exact absurd active hno
  | finished held open' active => exact absurd active hno

/-- The run a statement names. -/
def Statement.target : Statement → String
  | .createRun input _ => input.id
  | .requestRunCancellation id _ => id
  | s => (s.fenced.map Prod.fst).getD ""

theorem Wrote.target (h : Wrote lower db run s run') : s.target = run.id := by
  cases h <;> rfl

/-! ## Steps and runs -/

theorem run_eq_of_id (hids : (db.runs.map RunRow.id).Nodup) {a b : RunRow} (ha : a ∈ db.runs) (hb : b ∈ db.runs)
    (h : a.id = b.id) : a = b :=
  List.inj_on_of_nodup_map hids ha hb h

theorem lease_runs (h : ∀ s, event ≠ .statement s) : (next lower db event).runs = db.runs := by
  cases event with
  | statement s => exact absurd rfl (h s)
  | acquire key holder nowMs ttlMs =>
    simp only [next, acquire]
    split
    · rfl
    · split <;> rfl
  | renew key holder nowMs ttlMs =>
    simp only [next, renew]
    split
    · split <;> rfl
    · rfl
  | release key holder =>
    simp only [next, release]
    split
    · split <;> rfl
    · rfl

/-- A row after a step is a new run's, or one that was there, left or written. -/
theorem rows_of_step (h : run' ∈ (next lower db event).runs) :
    (run'.status = .pending ∧ ∀ run ∈ db.runs, run.id ≠ run'.id) ∨
      ∃ run ∈ db.runs, run' = run ∨ ∃ s, event = .statement s ∧ Wrote lower db run s run' := by
  cases event with
  | statement s =>
    rcases execute_rows h with ⟨input, now, -, hfree, rfl⟩ | ⟨run, hrun, hsame | hwrote⟩
    · exact .inl ⟨rfl, hfree⟩
    · exact .inr ⟨run, hrun, .inl hsame⟩
    · exact .inr ⟨run, hrun, .inr ⟨s, rfl, hwrote⟩⟩
  | acquire key holder nowMs ttlMs =>
    rw [lease_runs (by simp)] at h
    exact .inr ⟨run', h, .inl rfl⟩
  | renew key holder nowMs ttlMs =>
    rw [lease_runs (by simp)] at h
    exact .inr ⟨run', h, .inl rfl⟩
  | release key holder =>
    rw [lease_runs (by simp)] at h
    exact .inr ⟨run', h, .inl rfl⟩

theorem ids_kept (lower : String → String) (event : Event) (h : run ∈ db.runs) :
    ∃ run' ∈ (next lower db event).runs, run'.id = run.id := by
  have hid : run.id ∈ (next lower db event).runs.map RunRow.id := by
    have hmem : run.id ∈ db.runs.map RunRow.id := List.mem_map.mpr ⟨run, h, rfl⟩
    cases event with
    | statement s =>
      rcases execute_ids lower db s with hsame | ⟨id, -, hsame⟩
      · rw [next, hsame]
        exact hmem
      · rw [next, hsame]
        exact List.mem_append_left _ hmem
    | acquire key holder nowMs ttlMs => rwa [lease_runs (by simp)]
    | renew key holder nowMs ttlMs => rwa [lease_runs (by simp)]
    | release key holder => rwa [lease_runs (by simp)]
  exact List.mem_map.mp hid

/-- Each row is there after a step, left or written. -/
theorem step_row (lower : String → String) (event : Event) (hids : (db.runs.map RunRow.id).Nodup) (h : run ∈ db.runs) :
    ∃ run' ∈ (next lower db event).runs, run' = run ∨ ∃ s, event = .statement s ∧ Wrote lower db run s run' := by
  obtain ⟨run', hrun', hid⟩ := ids_kept lower event h
  refine ⟨run', hrun', ?_⟩
  rcases rows_of_step hrun' with ⟨-, hfree⟩ | ⟨was, hwas, hchange⟩
  · exact absurd hid.symm (hfree run h)
  · have hsame : was.id = run.id := by
      rcases hchange with rfl | ⟨s, -, hwrote⟩
      · exact hid
      · rw [← hwrote.id, hid]
    rwa [run_eq_of_id hids hwas h hsame] at hchange

/-- At most one run of an environment is running. -/
def Alone (db : Database) : Prop :=
  ∀ a ∈ db.runs, ∀ b ∈ db.runs, a.status = .running → b.status = .running → a.coordinate = b.coordinate → a = b

theorem alone_step (hids : (db.runs.map RunRow.id).Nodup) (halone : Alone db) : Alone (next lower db event) := by
  have hids' := ids_nodup_step hids (show Step lower db event (next lower db event) from rfl)
  -- A run that becomes running is alone among those that ran, and the only one the statement writes.
  have hbecomes : ∀ {a b a' b' : RunRow}, a ∈ db.runs → b ∈ db.runs → a'.status = .running → b'.status = .running →
      a.coordinate = b.coordinate → a.status ≠ .running → (∃ s, event = .statement s ∧ Wrote lower db a s a') →
      (b' = b ∨ ∃ s, event = .statement s ∧ Wrote lower db b s b') → a.id = b.id := by
    rintro a b a' b' ha hb ha' hb' hcoordinate hnot ⟨s, rfl, hwrote⟩ hchange
    rcases hchange with rfl | ⟨s', hs', hwrote'⟩
    · exact ((hwrote.starts hnot ha').1 b' hb hcoordinate.symm hb').symm
    · cases hs'
      rw [← hwrote.target, ← hwrote'.target]
  intro a' ha' b' hb' hra hrb hcoordinate
  apply run_eq_of_id hids' ha' hb'
  rcases rows_of_step ha' with ⟨hpending, -⟩ | ⟨a, ha, hca⟩
  · rw [hpending] at hra
    cases hra
  · rcases rows_of_step hb' with ⟨hpending, -⟩ | ⟨b, hb, hcb⟩
    · rw [hpending] at hrb
      cases hrb
    · have hida : a'.id = a.id ∧ a'.coordinate = a.coordinate := by
        rcases hca with rfl | ⟨s, -, hwrote⟩
        · exact ⟨rfl, rfl⟩
        · exact ⟨hwrote.id, hwrote.later.coordinate⟩
      have hidb : b'.id = b.id ∧ b'.coordinate = b.coordinate := by
        rcases hcb with rfl | ⟨s, -, hwrote⟩
        · exact ⟨rfl, rfl⟩
        · exact ⟨hwrote.id, hwrote.later.coordinate⟩
      have hsame : a.coordinate = b.coordinate := by rw [← hida.2, ← hidb.2, hcoordinate]
      rw [hida.1, hidb.1]
      by_cases hsa : a.status = .running
      · by_cases hsb : b.status = .running
        · rw [halone a ha b hb hsa hsb hsame]
        · rcases hcb with rfl | hwrote
          · exact absurd hrb hsb
          · exact (hbecomes hb ha hrb hra hsame.symm hsb hwrote hca).symm
      · rcases hca with rfl | hwrote
        · exact absurd hra hsa
        · exact hbecomes ha hb hra hrb hsame hsa hwrote hcb

theorem unfenced_mutateRun {id : String} {guard : RunRow → Bool} {set : RunRow → RunRow}
    (h : ∀ run ∈ db.runs, run.id = id → ¬ Held db run fence) : mutateRun db id guard set fence = (db, false) := by
  have hno : ∀ run ∈ db.runs, (run.id == id && (guard run && holdsKey db (runLeaseKey run.coordinate) fence)) = false := by
    intro run hrun
    rw [Bool.eq_false_iff]
    intro hmatch
    simp only [Bool.and_eq_true, beq_iff_eq] at hmatch
    exact h run hrun hmatch.1 hmatch.2.2
  unfold mutateRun updateRun
  have hmap : (db.runs.map fun run =>
      if (run.id == id && (guard run && holdsKey db (runLeaseKey run.coordinate) fence)) = true then set run else run) =
      db.runs := by
    conv_rhs => rw [← List.map_id db.runs]
    apply List.map_congr_left
    intro run hrun
    rw [hno run hrun]
    rfl
  rw [hmap, List.any_eq_false.mpr]
  intro run hrun
  rw [hno run hrun]
  simp

theorem publishes_held {row : AppEnvRow} {expected : Expected} (h : publishes db run row expected fence = true) :
    Held db run fence ∧ run.status = .running ∧ run.cancelRequestedAt = none := by
  simp only [publishes, Bool.and_eq_true, beq_iff_eq, Option.isNone_iff_eq_none] at h
  exact ⟨h.2, h.1.1.1.2, h.1.1.2⟩

theorem held_ensureProtection {c : Coordinate} : Held (ensureProtection db c) run fence ↔ Held db run fence := by
  unfold Held holdsKey
  rw [ensureProtection_locks]

/-- No run, lease, environment or protection changes; a coordinate without a protection row may get
    the one `coordinateLockStatements` inserts. -/
structure Unchanged (db db' : Database) : Prop where
  runs : db'.runs = db.runs
  locks : db'.locks = db.locks
  appEnvs : db'.appEnvs = db.appEnvs
  protections : ∀ c, db'.protections c = db.protections c ∨
    (db.protections c = none ∧ db'.protections c = some ⟨defaultProtected c.2, 0, 0⟩)

theorem Unchanged.refl (db : Database) : Unchanged db db := ⟨rfl, rfl, rfl, fun _ => .inl rfl⟩

theorem unchanged_ensureProtection (c : Coordinate) : Unchanged db (ensureProtection db c) := by
  refine ⟨ensureProtection_runs c, ensureProtection_locks c, ensureProtection_appEnvs c, fun d => ?_⟩
  unfold ensureProtection
  split
  · exact .inl rfl
  · rename_i hnone
    by_cases hd : d = c
    · subst hd
      exact .inr ⟨hnone, Function.update_self ..⟩
    · exact .inl (Function.update_of_ne hd _ _)

/-- A publication the run's row does not allow changes nothing. -/
theorem unpublished {id : String} {expected : Expected} {snapshotJson : String} {fence : LeaseFence}
    (h : ∀ run ∈ db.runs, run.id = id → ¬ (Held db run fence ∧ run.status = .running ∧ run.cancelRequestedAt = none)) :
    (publishRunSnapshot db id expected snapshotJson fence).2 = false ∧
      Unchanged db (publishRunSnapshot db id expected snapshotJson fence).1 := by
  unfold publishRunSnapshot
  split
  · exact ⟨rfl, .refl db⟩
  · rename_i run hfind
    have hid : run.id = id := by simpa using List.find?_some hfind
    dsimp only
    split
    · exact ⟨rfl, unchanged_ensureProtection _⟩
    · rw [if_neg]
      · exact ⟨rfl, unchanged_ensureProtection _⟩
      · intro hpublishes
        obtain ⟨hheld, hrunning, hactive⟩ := publishes_held hpublishes
        exact h run (List.mem_of_find?_eq_some hfind) hid ⟨(held_ensureProtection).mp hheld, hrunning, hactive⟩

theorem unfenced_execute {id : String} (hs : s.fenced = some (id, fence))
    (h : ∀ run ∈ db.runs, run.id = id → ¬ Held db run fence) :
    (execute lower db s).2 = false ∧ Unchanged db (execute lower db s).1 := by
  have hmutate : ∀ (guard : RunRow → Bool) (set : RunRow → RunRow), execute lower db s = mutateRun db id guard set fence →
      (execute lower db s).2 = false ∧ Unchanged db (execute lower db s).1 := by
    intro guard set heq
    rw [heq, unfenced_mutateRun h]
    exact ⟨rfl, .refl db⟩
  cases s with
  | createRun input now => cases hs
  | requestRunCancellation id' now => cases hs
  | publishRunSnapshot id' expected snapshotJson fence' =>
    cases hs
    exact unpublished fun run hrun hid hall => h run hrun hid hall.1
  | _ =>
    cases hs
    exact hmutate _ _ rfl

/-! ## The run table is safe -/

/-- What holds of a database in which the run table's lifecycle is safe, whatever comes next. -/
structure LifecycleSafe (lower : String → String) (db : Database) : Prop where
  alone : Alone db
  /-- A write whose fence does not hold the run's lease changes nothing. -/
  fenced : ∀ s id fence, s.fenced = some (id, fence) → (∀ run ∈ db.runs, run.id = id → ¬ Held db run fence) →
    (execute lower db s).2 = false ∧ Unchanged db (execute lower db s).1
  /-- A run moves along an edge; it becomes running only while no newer run of its lane has succeeded. -/
  moves : ∀ s, ∀ run ∈ db.runs, ∃ run' ∈ (execute lower db s).1.runs, run'.id = run.id ∧
    (run'.status = run.status ∨ Edge run.status run'.status) ∧
    (run.status ≠ .running → run'.status = .running → ∀ newer ∈ db.runs, supersedes newer run = false)
  /-- Once its cancellation is requested, nothing but its settlement moves, decides or finishes a run. -/
  cancelled : ∀ s, ∀ run ∈ db.runs, run.cancelRequestedAt.isSome → ∃ run' ∈ (execute lower db s).1.runs, run'.id = run.id ∧
    ((∃ outcome now fence, s = .markRunCancellationFinished run.id outcome now fence) ∨
      run'.status = run.status ∧ run'.approvalJson = run.approvalJson ∧ run'.finishedAt = run.finishedAt)
  unpublished : ∀ run ∈ db.runs, run.cancelRequestedAt.isSome → ∀ expected snapshotJson fence,
    (publishRunSnapshot db run.id expected snapshotJson fence).2 = false ∧
      (publishRunSnapshot db run.id expected snapshotJson fence).1.appEnvs = db.appEnvs
  /-- What is settled of a run stays, over every further run of the system. -/
  later : ∀ evs db', Run (Step lower) db evs db' → ∀ run ∈ db.runs, ∃ run' ∈ db'.runs, Later lower run run'

theorem later_of_run (hids : (db.runs.map RunRow.id).Nodup) {evs : List Event} {db' : Database}
    (h : Run (Step lower) db evs db') :
    (db'.runs.map RunRow.id).Nodup ∧ ∀ run ∈ db.runs, ∃ run' ∈ db'.runs, Later lower run run' := by
  induction h with
  | nil => exact ⟨hids, fun run hrun => ⟨run, hrun, .refl run⟩⟩
  | @snoc _ mid last event _ hstep ih =>
    refine ⟨ids_nodup_step ih.1 hstep, ?_⟩
    intro run hrun
    obtain ⟨run', hrun', hlater⟩ := ih.2 run hrun
    obtain ⟨run'', hrun'', hchange⟩ := step_row lower event ih.1 hrun'
    rw [← show last = next lower mid event from hstep] at hrun''
    refine ⟨run'', hrun'', ?_⟩
    rcases hchange with rfl | ⟨s, -, hwrote⟩
    · exact hlater
    · exact hlater.trans hwrote.later

theorem lifecycle_of (hids : (db.runs.map RunRow.id).Nodup) (halone : Alone db) : LifecycleSafe lower db where
  alone := halone
  fenced _ _ _ hs h := unfenced_execute hs h
  moves s run hrun := by
    obtain ⟨run', hrun', hchange⟩ := step_row lower (.statement s) hids hrun
    refine ⟨run', hrun', ?_⟩
    rcases hchange with rfl | ⟨s', -, hwrote⟩
    · exact ⟨rfl, .inl rfl, fun hnot hnow => absurd hnow hnot⟩
    · exact ⟨hwrote.id, hwrote.edge, fun hnot hnow => (hwrote.starts hnot hnow).2⟩
  cancelled s run hrun hcancel := by
    obtain ⟨run', hrun', hchange⟩ := step_row lower (.statement s) hids hrun
    refine ⟨run', hrun', ?_⟩
    rcases hchange with rfl | ⟨s', hs', hwrote⟩
    · exact ⟨rfl, .inr ⟨rfl, rfl, rfl⟩⟩
    · cases hs'
      exact ⟨hwrote.id, hwrote.cancelled_only hcancel⟩
  unpublished run hrun hcancel expected snapshotJson fence := by
    have hno := @unpublished db run.id expected snapshotJson fence (by
      intro other hother hid hall
      rw [run_eq_of_id hids hother hrun hid] at hall
      rw [hall.2.2] at hcancel
      cases hcancel)
    exact ⟨hno.1, hno.2.appEnvs⟩
  later evs db' h := (later_of_run hids h).2

/-- Over every sequence of run statements, by any callers with any fences, and of lease
    acquisitions, renewals, takeovers and releases, from a database without a run. -/
theorem lifecycle_safe {start : Database} (hstart : start.runs = []) {evs : List Event}
    (h : Run (Step lower) start evs db) : LifecycleSafe lower db := by
  have hinv : (db.runs.map RunRow.id).Nodup ∧ Alone db := by
    refine h.invariant (P := fun db => (db.runs.map RunRow.id).Nodup ∧ Alone db) ?_ ?_
    · exact ⟨by rw [hstart]; exact List.nodup_nil, fun a ha => by rw [hstart] at ha; cases ha⟩
    · rintro s event s' ⟨hids, halone⟩ rfl
      exact ⟨ids_nodup_step hids rfl, alone_step hids halone⟩
  exact lifecycle_of hinv.1 hinv.2

/-! ## A takeover -/

def aRun : CreateRun :=
  { id := "r1", appId := "notes", env := "prod", ref := "refs/heads/main", commitSha := none, trigger := .manual,
    actor := "user:1", lane := none }

/-- `h1` starts the run, its lease expires, `h2` takes it over, and `h1` still means to finish the run. -/
def takeover : List Event :=
  [.statement (.createRun aRun 0), .acquire "notes:prod" "h1" 0 90, .statement (.markRunStarted "r1" "runs/r1" 1 ⟨"h1", 1⟩),
    .acquire "notes:prod" "h2" 100 90, .statement (.requestRunCancellation "r1" 101)]

def afterTakeover : Database := takeover.foldl (next id) emptyDatabase

theorem run_foldl (evs : List Event) (start : Database) : Run (Step lower) start evs (evs.foldl (next lower) start) := by
  induction evs using List.reverseRecOn with
  | nil => exact .nil
  | append_singleton evs event ih =>
    rw [List.foldl_append]
    exact .snoc ih rfl

/-- The first holder finishes nothing: it lost the lease, and a cancellation is requested. -/
theorem a_takeover_is_safe : LifecycleSafe id afterTakeover ∧
    (afterTakeover.runs.map fun run => (run.status, run.cancelRequestedAt)) = [(.running, some 101)] ∧
    (execute id afterTakeover (.markRunFinished "r1" .succeeded (some 0) 102 ⟨"h1", 102⟩)).2 = false :=
  ⟨@lifecycle_safe id afterTakeover emptyDatabase rfl _ (run_foldl takeover emptyDatabase), by decide, by decide⟩

end Fabrika.Control.Runs
