/-
  Fabrika.Db.JobLeasesProofs — lease fencing over any interleaving.

  `step_lease` says once what a step does to a job's lease row: nothing, or it registers
  it, takes it under the next generation, frees it, or reports it overdue; and every
  change but the first needs the row unlocked. From it:
  - `run_transactions`: every open fenced transaction's lease row holds exactly its
    generation and holder, so a commit happens only then.
  - `run_issued`: the generations returned for a job only grow.
  - `dead_run`: a fence that was superseded, finished or reaped stays dead; its renewal
    and finish match no row and none of its transactions commits.
-/

import Fabrika.Db.JobLeases
import Mathlib.Data.List.Pairwise

namespace Fabrika.Db.JobLeases

open Fabrika.Lib

/-! ## What a step does to a lease row -/

/-- The row of `job` after a step that answered `ev`. -/
inductive LeaseMove (s : St) (ev : Ev) (job : String) : Option Lease → Prop
  | same : ev.issued.map LeaseFence.job ≠ some job → ev ≠ .reapCrashed job true → LeaseMove s ev job (s.leases job)
  | created (l : Lease) : ev.issued = none → s.leases job = none → LeaseMove s ev job (some l)
  | taken (l : Lease) (holder : String) : ev.issued = some ⟨job, holder, l.generation⟩ → l.holder = some holder →
      ¬ Locked s job → (∀ l', s.leases job = some l' → l.generation = l'.generation + 1) → LeaseMove s ev job (some l)
  | freed (l l' : Lease) : ev.issued = none → ¬ Locked s job → s.leases job = some l' →
      l.generation = l'.generation → l.holder = none → LeaseMove s ev job (some l)
  | touched (l l' : Lease) : ev.issued = none → ev ≠ .reapCrashed job true → s.leases job = some l' →
      l.generation = l'.generation → l.holder = l'.holder → LeaseMove s ev job (some l)

theorem put_same (s : St) (job : String) (l : Lease) : (s.put job l).leases job = some l := by
  simp [St.put]

variable {job holder : String} {attemptMs leaseMs : Milliseconds} {l : Lease} {now : Time} {o : Option Lease}
variable {fence : LeaseFence} {ev : Ev} {s s' : St} {evs : List Ev}

theorem put_other (s : St) {other : String} (l : Lease) (h : other ≠ job) : (s.put job l).leases other = s.leases other := by
  simp [St.put, h]

theorem acquire_taken (h : acquire now holder leaseMs attemptMs o = some l) :
    l.holder = some holder ∧ l.lastStartedAt = some now ∧ ∀ l', o = some l' → l'.holder = none ∧
    l.generation = l'.generation + 1 := by
  cases o with
  | none => cases h; simp
  | some l' =>
    simp only [acquire] at h
    split at h
    · rename_i hfree
      cases h
      refine ⟨rfl, rfl, ?_⟩
      intro l'' e
      cases e
      exact ⟨hfree, rfl⟩
    · cases h

theorem tryAcquire_eq (h : tryAcquire now holder leaseMs attemptMs o = some l) :
    acquire now holder leaseMs attemptMs o = some l := by
  cases o with
  | none => cases h
  | some l' => exact h

theorem renew_taken (h : o.bind (renew now fence holder leaseMs attemptMs) = some l) :
    ∃ l', o = some l' ∧ Holds fence l' ∧ l.holder = some holder ∧ l.generation = l'.generation + 1 ∧
      l.lastStartedAt = l'.lastStartedAt := by
  obtain ⟨l', hl', hrow⟩ := Option.bind_eq_some_iff.mp h
  simp only [renew] at hrow
  split at hrow
  · rename_i hmatch
    cases hrow
    exact ⟨l', hl', hmatch.1, rfl, rfl, rfl⟩
  · cases hrow

theorem reap_freed (h : o.bind (reap now) = some l) :
    ∃ l', o = some l' ∧ l'.holder ≠ none ∧ l'.expiresAt ≤ now ∧ l.holder = none ∧ l.generation = l'.generation := by
  obtain ⟨l', hl', hrow⟩ := Option.bind_eq_some_iff.mp h
  simp only [reap] at hrow
  split at hrow
  · rename_i hmatch
    cases hrow
    exact ⟨l', hl', hmatch.1, hmatch.2, rfl, rfl⟩
  · cases hrow

theorem finish_freed {outcome : JobOutcome} (h : o.bind (finish now fence outcome) = some l) :
    ∃ l', o = some l' ∧ Holds fence l' ∧ l.holder = none ∧ l.generation = l'.generation := by
  obtain ⟨l', hl', hrow⟩ := Option.bind_eq_some_iff.mp h
  simp only [finish] at hrow
  split at hrow
  · rename_i hmatch
    cases hrow
    exact ⟨l', hl', hmatch, rfl, rfl⟩
  · cases hrow

theorem claimOverdue_touched {period : Milliseconds} (h : o.bind (claimOverdue now period) = some l) :
    ∃ l', o = some l' ∧ l.generation = l'.generation ∧ l.holder = l'.holder := by
  obtain ⟨l', hl', hrow⟩ := Option.bind_eq_some_iff.mp h
  simp only [claimOverdue] at hrow
  split at hrow
  · cases hrow
    exact ⟨l', hl', rfl, rfl⟩
  · cases hrow

/-- A step that leaves the lease rows as they are and issues no fence. -/
theorem LeaseMove.of_eq (he : s'.leases = s.leases) (hi : ev.issued = none) (hr : ev ≠ .reapCrashed job true) :
    LeaseMove s ev job (s'.leases job) := by
  rw [he]
  exact .same (by simp [hi]) hr

theorem step_lease (h : Step s ev s') (job : String) : LeaseMove s ev job (s'.leases job) := by
  cases h with
  | tick later _ => exact .of_eq rfl rfl (by simp)
  | register job' now _ =>
    by_cases e : job = job'
    · subst e
      rw [put_same]
      cases hl : s.leases job with
      | none => exact .created _ rfl hl
      | some l => exact .touched _ l rfl (by simp) hl rfl rfl
    · rw [put_other s _ e]
      exact .same (by simp [Ev.issued]) (by simp)
  | acquire job' holder leaseMs attemptMs now l _ hlock ha =>
    obtain ⟨hh, -, hg⟩ := acquire_taken ha
    by_cases e : job = job'
    · subst e
      rw [put_same]
      exact .taken l holder rfl hh hlock (fun l' h => (hg l' h).2)
    · rw [put_other s _ e]
      exact .same (by simpa [Ev.issued] using Ne.symm e) (by simp)
  | acquireNone job' holder leaseMs attemptMs now _ _ => exact .of_eq rfl rfl (by simp)
  | tryAcquire job' holder leaseMs attemptMs now l _ hlock ha =>
    obtain ⟨hh, -, hg⟩ := acquire_taken (tryAcquire_eq ha)
    by_cases e : job = job'
    · subst e
      rw [put_same]
      exact .taken l holder rfl hh hlock (fun l' h => (hg l' h).2)
    · rw [put_other s _ e]
      exact .same (by simpa [Ev.issued] using Ne.symm e) (by simp)
  | tryAcquireNone job' holder leaseMs attemptMs now _ _ => exact .of_eq rfl rfl (by simp)
  | renew fence holder leaseMs attemptMs now l _ hlock hr =>
    obtain ⟨l', hl', -, hh, hg, -⟩ := renew_taken hr
    by_cases e : job = fence.job
    · subst e
      rw [put_same]
      refine .taken l holder rfl hh hlock ?_
      intro l'' h
      rw [hl'] at h
      cases h
      exact hg
    · rw [put_other s _ e]
      exact .same (by simpa [Ev.issued] using Ne.symm e) (by simp)
  | renewNone fence holder leaseMs attemptMs now _ _ => exact .of_eq rfl rfl (by simp)
  | reap job' now l _ hlock hr =>
    obtain ⟨l', hl', -, -, hh, hg⟩ := reap_freed hr
    by_cases e : job = job'
    · subst e
      rw [put_same]
      exact .freed l l' rfl hlock hl' hg hh
    · rw [put_other s _ e]
      exact .same (by simp [Ev.issued]) (by simpa using Ne.symm e)
  | reapNone job' now _ _ => exact .of_eq rfl rfl (by simp)
  | finish fence outcome now l _ hlock hf =>
    obtain ⟨l', hl', -, hh, hg⟩ := finish_freed hf
    by_cases e : job = fence.job
    · subst e
      rw [put_same]
      exact .freed l l' rfl hlock hl' hg hh
    · rw [put_other s _ e]
      exact .same (by simp [Ev.issued]) (by simp)
  | finishNone fence outcome now _ _ => exact .of_eq rfl rfl (by simp)
  | overdue job' period now l _ hlock ho =>
    obtain ⟨l', hl', hg, hh⟩ := claimOverdue_touched ho
    by_cases e : job = job'
    · subst e
      rw [put_same]
      exact .touched l l' rfl (by simp) hl' hg hh
    · rw [put_other s _ e]
      exact .same (by simp [Ev.issued]) (by simp)
  | overdueNone job' period now _ _ => exact .of_eq rfl rfl (by simp)
  | fence fence l _ _ _ => exact .of_eq rfl rfl (by simp)
  | fenceLost fence _ => exact .of_eq rfl rfl (by simp)
  | work fence _ => exact .of_eq rfl rfl (by simp)
  | stillHeld fence l _ _ _ _ => exact .of_eq rfl rfl (by simp)
  | commit fence _ => exact .of_eq rfl rfl (by simp)
  | rollback t _ => exact .of_eq rfl rfl (by simp)
  | cancelInFlight fence => exact .of_eq rfl rfl (by simp)

theorem step_generation (h : Step s ev s') (hl : s.leases job = some l) :
    ∃ l', s'.leases job = some l' ∧ l.generation ≤ l'.generation := by
  generalize he : s'.leases job = o
  have hm := step_lease h job
  rw [he] at hm
  cases hm with
  | same _ _ => exact ⟨l, hl, Nat.le_refl _⟩
  | created l' _ hn => rw [hl] at hn; cases hn
  | taken l' holder _ _ _ hg => exact ⟨l', rfl, by have := hg l hl; omega⟩
  | freed l' l'' _ _ hl'' hg _ => rw [hl] at hl''; cases hl''; exact ⟨l', rfl, by omega⟩
  | touched l' l'' _ _ hl'' hg _ => rw [hl] at hl''; cases hl''; exact ⟨l', rfl, by omega⟩

theorem run_generation (h : Run Step s evs s') (hl : s.leases job = some l) :
    ∃ l', s'.leases job = some l' ∧ l.generation ≤ l'.generation := by
  induction h with
  | nil => exact ⟨l, hl, Nat.le_refl _⟩
  | snoc _ hs ih =>
    obtain ⟨l', hl', hle⟩ := ih
    obtain ⟨l'', hl'', hle'⟩ := step_generation hs hl'
    exact ⟨l'', hl'', Nat.le_trans hle hle'⟩

/-! ## Open transactions hold their lease -/

def HeldBy (s : St) (fence : LeaseFence) : Prop := ∃ l, s.leases fence.job = some l ∧ Holds fence l

/-- Where an open transaction of the next state comes from: it was open, or its fence check
    just passed. -/
theorem step_transaction (h : Step s ev s') {t : Transaction} (ht : t ∈ s'.transactions) :
    (∃ t' ∈ s.transactions, t'.fence = t.fence) ∨ (s'.leases = s.leases ∧ HeldBy s t.fence) := by
  cases h with
  | fence fence l _ hl hh =>
    rcases List.mem_cons.mp ht with rfl | ht
    · exact Or.inr ⟨rfl, l, hl, hh.1⟩
    · exact Or.inl ⟨t, ht, rfl⟩
  | work fence hm =>
    rcases List.mem_cons.mp ht with rfl | ht
    · exact Or.inl ⟨_, hm, rfl⟩
    · exact Or.inl ⟨t, List.mem_of_mem_erase ht, rfl⟩
  | stillHeld fence l hm _ _ _ =>
    rcases List.mem_cons.mp ht with rfl | ht
    · exact Or.inl ⟨_, hm, rfl⟩
    · exact Or.inl ⟨t, List.mem_of_mem_erase ht, rfl⟩
  | commit fence _ => exact Or.inl ⟨t, List.mem_of_mem_erase ht, rfl⟩
  | rollback t' _ => exact Or.inl ⟨t, List.mem_of_mem_erase ht, rfl⟩
  | _ => exact Or.inl ⟨t, ht, rfl⟩

def Fenced (s : St) : Prop := ∀ t ∈ s.transactions, HeldBy s t.fence

theorem step_fenced (h : Step s ev s') (hi : Fenced s) : Fenced s' := by
  intro t ht
  rcases step_transaction h ht with ⟨t', ht', hf⟩ | ⟨he, hh⟩
  · obtain ⟨l, hl, hh⟩ := hi t' ht'
    rw [hf] at hl hh
    have hlock : Locked s t.fence.job := ⟨t', ht', by rw [hf]⟩
    generalize he : s'.leases t.fence.job = o
    have hm := step_lease h t.fence.job
    rw [he] at hm
    -- The row is locked: it can only stay, or be reported overdue.
    cases hm with
    | same _ _ => exact ⟨l, he.trans hl, hh⟩
    | created l' _ hn => rw [hl] at hn; cases hn
    | taken l' holder _ _ hno _ => exact absurd hlock hno
    | freed l' l'' _ hno _ _ _ => exact absurd hlock hno
    | touched l' l'' _ _ hl'' hg hho =>
      rw [hl] at hl''
      cases hl''
      exact ⟨l', he, hg.trans hh.1, hho.trans hh.2⟩
  · obtain ⟨l, hl, hh⟩ := hh
    exact ⟨l, by rw [he]; exact hl, hh⟩

theorem run_transactions (h : Run Step init evs s) : Fenced s :=
  h.invariant (by intro t ht; cases ht) (fun _ _ _ hi hs => step_fenced hs hi)

/-! ## A superseded or reaped fence stays dead -/

/-- The row has moved past the fence's generation, or freed it. -/
def Dead (s : St) (fence : LeaseFence) : Prop :=
  ∃ l, s.leases fence.job = some l ∧ (fence.generation < l.generation ∨ fence.generation = l.generation ∧ l.holder = none)

theorem dead_not_held (h : Dead s fence) : ¬ HeldBy s fence := by
  obtain ⟨l, hl, hd⟩ := h
  rintro ⟨l', hl', hg, hh⟩
  rw [hl] at hl'
  cases hl'
  rcases hd with hd | ⟨-, hn⟩
  · omega
  · rw [hn] at hh; cases hh

theorem dead_step (h : Step s ev s') (hd : Dead s fence) : Dead s' fence := by
  obtain ⟨l, hl, hd⟩ := hd
  generalize he : s'.leases fence.job = o
  have hm := step_lease h fence.job
  rw [he] at hm
  cases hm with
  | same _ _ => exact ⟨l, he.trans hl, hd⟩
  | created l' _ hn => rw [hl] at hn; cases hn
  | taken l' holder _ _ _ hg => exact ⟨l', he, Or.inl (by have := hg l hl; omega)⟩
  | freed l' l'' _ _ hl'' hg hh =>
    rw [hl] at hl''
    cases hl''
    refine ⟨l', he, ?_⟩
    rcases hd with hd | ⟨hd, -⟩
    · exact Or.inl (by omega)
    · exact Or.inr ⟨by omega, hh⟩
  | touched l' l'' _ _ hl'' hg hh =>
    rw [hl] at hl''
    cases hl''
    exact ⟨l', he, by rw [hg, hh]; exact hd⟩

theorem dead_run (h : Run Step s evs s') (hd : Dead s fence) : Dead s' fence :=
  h.invariant (P := fun s => Dead s fence) hd (fun _ _ _ hd hs => dead_step hs hd)

theorem dead_renew (hd : Dead s fence) (now : Time) (holder : String) (leaseMs attemptMs : Milliseconds) :
    (s.leases fence.job).bind (renew now fence holder leaseMs attemptMs) = none := by
  by_contra hne
  obtain ⟨l, hl⟩ := Option.ne_none_iff_exists'.mp hne
  obtain ⟨l', hl', hh, -⟩ := renew_taken hl
  exact dead_not_held hd ⟨l', hl', hh⟩

theorem dead_finish (hd : Dead s fence) (now : Time) (outcome : JobOutcome) :
    (s.leases fence.job).bind (finish now fence outcome) = none := by
  by_contra hne
  obtain ⟨l, hl⟩ := Option.ne_none_iff_exists'.mp hne
  obtain ⟨l', hl', hh, -⟩ := finish_freed hl
  exact dead_not_held hd ⟨l', hl', hh⟩

/-! ## Issued generations -/

def issuedIn (evs : List Ev) : List LeaseFence := evs.filterMap Ev.issued

theorem issuedIn_concat (evs : List Ev) (ev : Ev) : issuedIn (evs ++ [ev]) = issuedIn evs ++ ev.issued.toList := by
  cases h : ev.issued <;> simp [issuedIn, h]

def Known (evs : List Ev) (s : St) : Prop :=
  ∀ fence ∈ issuedIn evs, ∃ l, s.leases fence.job = some l ∧ fence.generation ≤ l.generation

theorem step_issued (h : Step s ev s') (hi : ev.issued = some fence) :
    ∃ l, s'.leases fence.job = some l ∧ l.generation = fence.generation ∧
      ∀ l', s.leases fence.job = some l' → fence.generation = l'.generation + 1 := by
  generalize he : s'.leases fence.job = o
  have hm := step_lease h fence.job
  rw [he] at hm
  cases hm with
  | same hne _ => simp [hi] at hne
  | created l hn _ => rw [hi] at hn; cases hn
  | taken l holder hf _ _ hg =>
    rw [hi] at hf
    simp only [Option.some.injEq] at hf
    have hgen : fence.generation = l.generation := by rw [hf]
    exact ⟨l, rfl, hgen.symm, fun l' hl' => by rw [hgen]; exact hg l' hl'⟩
  | freed l l' hn _ _ _ _ => rw [hi] at hn; cases hn
  | touched l l' hn _ _ _ _ => rw [hi] at hn; cases hn

theorem run_known (h : Run Step init evs s) : Known evs s := by
  refine h.history (P := Known) (by intro f hf; cases hf) ?_
  intro evs s ev s' hk hs fence hf
  rw [issuedIn_concat, List.mem_append] at hf
  rcases hf with hf | hf
  · obtain ⟨l, hl, hle⟩ := hk fence hf
    obtain ⟨l', hl', hle'⟩ := step_generation hs hl
    exact ⟨l', hl', Nat.le_trans hle hle'⟩
  · obtain ⟨l, hl, hg, -⟩ := step_issued hs (Option.mem_toList.mp hf)
    exact ⟨l, hl, by omega⟩

/-- An issue or a reap kills every fence of the job issued before it. -/
theorem step_kills (h : Step s ev s') (hl : s.leases fence.job = some l) (hle : fence.generation ≤ l.generation)
    (hev : (∃ later, ev.issued = some later ∧ later.job = fence.job) ∨ ev = .reapCrashed fence.job true) : Dead s' fence := by
  generalize he : s'.leases fence.job = o
  have hm := step_lease h fence.job
  rw [he] at hm
  rcases hev with ⟨later, hi, hj⟩ | hev
  · obtain ⟨l', hl', hg, hnext⟩ := step_issued h hi
    rw [hj] at hl' hnext
    exact ⟨l', hl', Or.inl (by have := hnext l hl; omega)⟩
  · cases hm with
    | same _ hne => exact absurd hev hne
    | created l' _ hn => rw [hl] at hn; cases hn
    | taken l' holder hi _ _ _ => rw [hev] at hi; cases hi
    | freed l' l'' _ _ hl'' hg hh =>
      rw [hl] at hl''
      cases hl''
      refine ⟨l', he, ?_⟩
      by_cases e : fence.generation = l'.generation
      · exact Or.inr ⟨e, hh⟩
      · exact Or.inl (by omega)
    | touched l' l'' _ hne _ _ _ => exact absurd hev hne

theorem run_kills {a b : List Ev} (h : Run Step init (a ++ ev :: b) s) (hf : fence ∈ issuedIn a)
    (hev : (∃ later, ev.issued = some later ∧ later.job = fence.job) ∨ ev = .reapCrashed fence.job true) :
    ∃ m, Fenced m ∧ Run Step m b s ∧ Dead m fence := by
  obtain ⟨m, ha, hb⟩ := h.split
  obtain ⟨m', hs, hb⟩ := hb.split_cons
  obtain ⟨l, hl, hle⟩ := run_known ha fence hf
  exact ⟨m', step_fenced hs (run_transactions ha), hb, step_kills hs hl hle hev⟩

theorem run_issued (h : Run Step init evs s) :
    (issuedIn evs).Pairwise (fun earlier later => earlier.job = later.job → earlier.generation < later.generation) := by
  induction h with
  | nil => exact List.Pairwise.nil
  | snoc hr hs ih =>
    rw [issuedIn_concat, List.pairwise_append]
    refine ⟨ih, ?_, ?_⟩
    · cases Ev.issued _ <;> simp
    · intro earlier he later hl hj
      obtain ⟨l, hlease, hle⟩ := run_known hr earlier he
      obtain ⟨l', -, -, hnext⟩ := step_issued hs (Option.mem_toList.mp hl)
      rw [← hj] at hnext
      have := hnext l hlease
      omega

/-! ## Fencing -/

theorem commit_held (hi : Fenced s) (h : Step s (.commit fence) s') : HeldBy s fence := by
  cases h with
  | commit _ hm => exact hi _ hm

theorem dead_run_no_commit {m : St} {b : List Ev} (hi : Fenced m) (h : Run Step m b s) (hd : Dead m fence) :
    .commit fence ∉ b := by
  intro hmem
  obtain ⟨b₁, b₂, rfl⟩ := List.append_of_mem hmem
  obtain ⟨m₁, h₁, h₂⟩ := h.split
  obtain ⟨m₂, hs, -⟩ := h₂.split_cons
  have hi₁ : Fenced m₁ := h₁.invariant hi (fun _ _ _ hi hs => step_fenced hs hi)
  exact dead_not_held (dead_run h₁ hd) (commit_held hi₁ hs)

/-- Fencing over any interleaving of lease statements and fenced transactions. The
    generation of a lease row never falls and no generation is returned twice; a fenced
    transaction commits only while the row holds exactly its generation and holder, so not
    after a later fence of its job was issued; and the renewal and the finish of a
    superseded or reaped fence match no row and change nothing. -/
theorem lease_fencing :
    (∀ (s s' : St) (evs : List Ev) (job : String) (l : Lease), Run Step s evs s' → s.leases job = some l →
      ∃ l', s'.leases job = some l' ∧ l.generation ≤ l'.generation) ∧
    (∀ (evs : List Ev) (s : St), Run Step init evs s →
      (issuedIn evs).Pairwise (fun earlier later => earlier.job = later.job → earlier.generation < later.generation)) ∧
    (∀ (evs : List Ev) (s s' : St) (fence : LeaseFence), Run Step init evs s → Step s (.commit fence) s' →
      HeldBy s fence ∧ HeldBy s' fence) ∧
    (∀ (a b : List Ev) (ev : Ev) (s : St) (earlier later : LeaseFence), Run Step init (a ++ ev :: b) s →
      earlier ∈ issuedIn a → ev.issued = some later → later.job = earlier.job → .commit earlier ∉ b) ∧
    (∀ (a b : List Ev) (ev : Ev) (s : St) (fence : LeaseFence), Run Step init (a ++ ev :: b) s → fence ∈ issuedIn a →
      (∃ later, ev.issued = some later ∧ later.job = fence.job) ∨ ev = .reapCrashed fence.job true →
      (∀ now holder leaseMs attemptMs, (s.leases fence.job).bind (renew now fence holder leaseMs attemptMs) = none) ∧
      (∀ now outcome, (s.leases fence.job).bind (finish now fence outcome) = none) ∧
      (∀ answer s', Step s (.renew fence answer) s' → answer = none ∧ s' = s) ∧
      (∀ freed s', Step s (.finish fence freed) s' → freed = false ∧ s' = s)) := by
  refine ⟨fun s s' evs job l h hl => run_generation h hl, fun evs s h => run_issued h, ?_, ?_, ?_⟩
  · intro evs s s' fence h hs
    have hh := commit_held (run_transactions h) hs
    refine ⟨hh, ?_⟩
    cases hs with
    | commit _ _ => exact hh
  · intro a b ev s earlier later h hf hi hj
    obtain ⟨m, hi, hb, hd⟩ := run_kills h hf (Or.inl ⟨later, hi, hj⟩)
    exact dead_run_no_commit hi hb hd
  · intro a b ev s fence h hf hev
    obtain ⟨m, -, hb, hd⟩ := run_kills h hf hev
    have hdead := dead_run hb hd
    refine ⟨dead_renew hdead, dead_finish hdead, ?_, ?_⟩
    · intro answer s' hs
      cases hs with
      | renew _ holder leaseMs attemptMs now l _ _ hr => rw [dead_renew hdead] at hr; cases hr
      | renewNone => exact ⟨rfl, rfl⟩
    · intro freed s' hs
      cases hs with
      | finish _ outcome now l _ _ hr => rw [dead_finish hdead] at hr; cases hr
      | finishNone => exact ⟨rfl, rfl⟩

/-- One millisecond, the shortest duration there is. -/
def oneMs : Milliseconds := ⟨1, by decide⟩

def takenOnce : Lease := ⟨1, some "a", 1000, 1000, 0, some 0, none, none, none, none, none⟩

def reapedOnce : Lease := ⟨1, none, 1000, 1000, 0, some 0, some 1000, some .failed, none, some 1, none⟩

def takenTwice : Lease := ⟨2, some "b", 2000, 2000, 0, some 1000, some 1000, some .failed, none, some 1, none⟩

def crashed : St := { init.put "j" takenOnce with clock := 1000 }

def takenOver : St := (crashed.put "j" reapedOnce).put "j" takenTwice

def takeover : List Ev :=
  [.acquire "j" (some ⟨"j", "a", 1⟩), .tick, .reapCrashed "j" true, .acquire "j" (some ⟨"j", "b", 2⟩)]

theorem takeover_run : Run Step init takeover takenOver := by
  have hnone : ∀ {s : St}, s.transactions = [] → ¬ Locked s "j" := by
    intro s hs ⟨t, ht, _⟩
    rw [hs] at ht
    cases ht
  have h₁ : Step init _ _ := .acquire init "j" "a" oneMs oneMs 0 takenOnce (by decide) (hnone rfl) rfl
  have h₂ : Step (init.put "j" takenOnce) .tick crashed := .tick _ 1000 (by decide)
  have h₃ : Step crashed _ _ := .reap crashed "j" 1000 reapedOnce (by decide) (hnone rfl) (by decide)
  have h₄ : Step (crashed.put "j" reapedOnce) _ takenOver :=
    .acquire _ "j" "b" oneMs oneMs 1000 takenTwice (by decide) (hnone rfl) (by decide)
  exact ((((Run.nil).snoc h₁).snoc h₂).snoc h₃).snoc h₄

/-- The first attempt was reaped and superseded: its renewal and its finish change nothing. -/
theorem takeover_fences_first : Run Step init takeover takenOver ∧
    (∀ answer s', Step takenOver (.renew ⟨"j", "a", 1⟩ answer) s' → answer = none ∧ s' = takenOver) ∧
    (∀ freed s', Step takenOver (.finish ⟨"j", "a", 1⟩ freed) s' → freed = false ∧ s' = takenOver) :=
  ⟨takeover_run, ((lease_fencing).2.2.2.2 [.acquire "j" (some ⟨"j", "a", 1⟩), .tick]
    [.acquire "j" (some ⟨"j", "b", 2⟩)] (.reapCrashed "j" true) takenOver ⟨"j", "a", 1⟩ takeover_run (by decide)
    (Or.inr rfl)).2.2⟩

end Fabrika.Db.JobLeases
