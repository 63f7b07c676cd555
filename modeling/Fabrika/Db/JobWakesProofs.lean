/-
  Fabrika.Db.JobWakesProofs — no pending work is lost.

  `step_owned` says where an owned wake of the next state comes from: it was owned and
  nothing but a cron merge wrote it, or the step took its job's lease when it was due.
  `step_deleted` says how a wake goes: the finish of the run that owns it, or a re-arm of
  the key that is its job's claim key. So (`run_owned`) what a run's finish deletes was
  due when the run took its lease, and since then only cron merges wrote it.

  A cron merge leaves the mark, by design: `a_cron_merge_is_consumed` is a kick's row that
  a cron wake of its key merged into while a run owned it, consumed by that run's finish.
-/

import Fabrika.Db.JobWakes
import Fabrika.Db.JobLeasesProofs

namespace Fabrika.Db.JobWakes

open Fabrika.Lib Fabrika.Db.JobLeases

/-- The same row of the table: no statement changes a row's id, job or key. -/
def SameRow (w' w : Wake) : Prop := w'.id = w.id ∧ w'.job = w.job ∧ w'.dedupe = w.dedupe

theorem SameRow.trans {a b c : Wake} (h : SameRow a b) (h' : SameRow b c) : SameRow a c :=
  ⟨h.1.trans h'.1, h.2.1.trans h'.2.1, h.2.2.trans h'.2.2⟩

/-! ## Scheduling -/

variable {new : NewWake} {r : Scheduled} {wakes rows : List Wake} {w' w : Wake} {job : String}
variable {change : Option FinishWakes} {ev : Ev} {s s' : St} {evs : List Ev}

section
variable {id : Nat} (h : schedule id new wakes = some r)
include h

theorem schedule_cases :
    r = ⟨wakes ++ [rowOf id new], rowOf id new, false⟩ ∨
      ∃ w ∈ wakes, w.job = new.job ∧
        r = ⟨wakes.map fun w' => if w'.id = w.id then w'.merge new else w', w.merge new, true⟩ := by
  unfold schedule at h
  split at h
  · cases h
    exact Or.inl rfl
  · rename_i w hfind
    obtain ⟨key, -, hfind⟩ := Option.bind_eq_some_iff.mp hfind
    split at h
    · rename_i hjob
      cases h
      exact Or.inr ⟨w, List.mem_of_find?_eq_some hfind, hjob, rfl⟩
    · cases h

/-- A schedule keeps every row, never due later, and answers one due by the wake's time. -/
theorem schedule_keeps :
    (∀ w ∈ wakes, ∃ w' ∈ r.rows, SameRow w' w ∧ w'.dueAt ≤ w.dueAt) ∧ r.row ∈ r.rows ∧ r.row.dueAt ≤ new.dueAt := by
  rcases schedule_cases h with rfl | ⟨w, hw, -, rfl⟩
  · refine ⟨?_, by simp, by simp [rowOf]⟩
    intro w hw
    exact ⟨w, List.mem_append_left _ hw, ⟨rfl, rfl, rfl⟩, Int.le_refl _⟩
  · refine ⟨?_, ?_, Int.min_le_right _ _⟩
    · intro w' hw'
      refine ⟨_, List.mem_map.mpr ⟨w', hw', rfl⟩, ?_⟩
      split
      · exact ⟨⟨rfl, rfl, rfl⟩, Int.min_le_left _ _⟩
      · exact ⟨⟨rfl, rfl, rfl⟩, Int.le_refl _⟩
    · exact List.mem_map.mpr ⟨w, hw, by simp⟩

/-- An owned row after a schedule was owned before, and where the schedule wrote it, it was a
    cron merge. -/
theorem schedule_owned (hid : ∀ w ∈ wakes, w.id < id) (hw' : w' ∈ r.rows) (ho : w'.owned = true) :
    ∃ w ∈ wakes, w'.id = w.id ∧ w'.job = w.job ∧ w'.dueAt ≤ w.dueAt ∧ w.owned = true ∧
      (r.row.id = w.id → new.reason = .cron ∧ r.merged = true) := by
  rcases schedule_cases h with rfl | ⟨w, hw, -, rfl⟩
  · rcases List.mem_append.mp hw' with hw' | hw'
    · refine ⟨w', hw', rfl, rfl, Int.le_refl _, ho, ?_⟩
      intro he
      have := hid w' hw'
      simp only [rowOf] at he
      omega
    · rw [List.mem_singleton.mp hw'] at ho
      cases ho
  · obtain ⟨w₀, hw₀, rfl⟩ := List.mem_map.mp hw'
    refine ⟨w₀, hw₀, ?_⟩
    by_cases e : w₀.id = w.id
    · simp only [e, if_true] at ho ⊢
      obtain ⟨ho, hr⟩ := Bool.and_eq_true_iff.mp ho
      exact ⟨e, rfl, Int.min_le_left _ _, ho, fun _ => ⟨beq_iff_eq.mp hr, trivial⟩⟩
    · simp only [e, if_false] at ho ⊢
      exact ⟨trivial, trivial, Int.le_refl _, ho, fun he => absurd he.symm e⟩

theorem schedule_ids (hid : ∀ w ∈ wakes, w.id < id) (hw' : w' ∈ r.rows) : w'.id < id + 1 := by
  rcases schedule_cases h with rfl | ⟨w, hw, -, rfl⟩
  · rcases List.mem_append.mp hw' with hw' | hw'
    · have := hid w' hw'; omega
    · rw [List.mem_singleton.mp hw']; exact Nat.lt_succ_self _
  · obtain ⟨w₀, hw₀, rfl⟩ := List.mem_map.mp hw'
    have := hid w₀ hw₀
    split
    · show w₀.id < id + 1; omega
    · omega

end

/-! ## Disowning, consuming and retrying -/

theorem disown_owned (hw : w ∈ disown job wakes) (ho : w.owned = true) : w ∈ wakes ∧ w.job ≠ job := by
  obtain ⟨w₀, hw₀, rfl⟩ := List.mem_map.mp hw
  by_cases e : w₀.job = job ∧ w₀.owned = true
  · simp [e] at ho
  · simp only [e, if_false] at ho ⊢
    exact ⟨hw₀, fun hj => e ⟨hj, ho⟩⟩

theorem disown_ids (hw : w ∈ disown job wakes) : ∃ w₀ ∈ wakes, w₀.id = w.id := by
  obtain ⟨w₀, hw₀, rfl⟩ := List.mem_map.mp hw
  exact ⟨w₀, hw₀, by split <;> rfl⟩

theorem disown_keeps (hw : w ∈ wakes) : ∃ w' ∈ disown job wakes, SameRow w' w :=
  ⟨_, List.mem_map.mpr ⟨w, hw, rfl⟩, by split <;> exact ⟨rfl, rfl, rfl⟩⟩

theorem retry_ids {at_ : Int} (hw : w ∈ retry job at_ wakes) : ∃ w₀ ∈ wakes, w₀.id = w.id ∧ (w.owned = true → w₀ = w) := by
  obtain ⟨w₀, hw₀, rfl⟩ := List.mem_map.mp hw
  refine ⟨w₀, hw₀, ?_⟩
  split
  · exact ⟨rfl, fun h => by cases h⟩
  · exact ⟨rfl, fun _ => rfl⟩

theorem retry_keeps {at_ : Int} (hw : w ∈ wakes) : ∃ w' ∈ retry job at_ wakes, SameRow w' w :=
  ⟨_, List.mem_map.mpr ⟨w, hw, rfl⟩, by split <;> exact ⟨rfl, rfl, rfl⟩⟩

theorem consume_keeps (hw : w ∈ wakes) (h : ¬ (w.job = job ∧ w.owned = true)) : w ∈ consume job wakes := by
  refine List.mem_filter.mpr ⟨hw, ?_⟩
  by_cases e : w.job = job
  · cases ho : w.owned with
    | false => simp
    | true => exact absurd ⟨e, ho⟩ h
  · simp [e]

theorem finished_cases {id : Nat} (h : finished id job wakes change = some rows) :
    (change = none ∧ rows = disown job wakes) ∨ (∃ at_, change = some (.retry at_) ∧ rows = disown job (retry job at_ wakes)) ∨
      (change = some (.completed none) ∧ rows = disown job (consume job wakes)) ∨
      (∃ next new r, change = some (.completed (some next)) ∧ new.reason = .cron ∧ schedule id new (consume job wakes) = some r ∧
        rows = disown job r.rows) := by
  unfold finished at h
  split at h
  · cases h; exact Or.inl ⟨rfl, rfl⟩
  · cases h; exact Or.inr (Or.inl ⟨_, rfl, rfl⟩)
  · cases h; exact Or.inr (Or.inr (Or.inl ⟨rfl, rfl⟩))
  · rename_i next
    simp only [Option.bind_eq_bind, Option.bind_eq_some_iff, Option.pure_def, Option.some.injEq] at h
    obtain ⟨new, hn, r, hr, rfl⟩ := h
    refine Or.inr (Or.inr (Or.inr ⟨next, new, r, rfl, ?_, hr, rfl⟩))
    unfold newWake at hn
    split at hn
    · cases hn; rfl
    · cases hn

theorem rearmed_cases {id : Nat} {due : Option Int} (h : rearmed id job due wakes = some rows) :
    rows = dropClaim job (claimKey job) wakes ∨
      ∃ new r, schedule id new (dropClaim job (claimKey job) wakes) = some r ∧ rows = r.rows := by
  unfold rearmed at h
  split at h
  · cases h; exact Or.inl rfl
  · simp only [Option.bind_eq_bind, Option.bind_eq_some_iff, Option.pure_def, Option.some.injEq] at h
    obtain ⟨new, -, r, hr, rfl⟩ := h
    exact Or.inr ⟨new, r, hr, rfl⟩

section
variable {id : Nat} (h : finished id job wakes change = some rows)
include h

/-- An owned row after a finish is another job's, and was owned before. -/
theorem finished_owned (hid : ∀ w ∈ wakes, w.id < id) (hw' : w' ∈ rows) (ho : w'.owned = true) :
    w'.job ≠ job ∧ ∃ w ∈ wakes, w'.id = w.id ∧ w'.job = w.job ∧ w'.dueAt ≤ w.dueAt ∧ w.owned = true := by
  rcases finished_cases h with ⟨-, rfl⟩ | ⟨at_, -, rfl⟩ | ⟨-, rfl⟩ | ⟨next, new, r, -, -, hr, rfl⟩
  · obtain ⟨hm, hj⟩ := disown_owned hw' ho
    exact ⟨hj, w', hm, rfl, rfl, Int.le_refl _, ho⟩
  · obtain ⟨hm, hj⟩ := disown_owned hw' ho
    obtain ⟨w, hw, -, he⟩ := retry_ids hm
    rw [he ho] at hw
    exact ⟨hj, w', hw, rfl, rfl, Int.le_refl _, ho⟩
  · obtain ⟨hm, hj⟩ := disown_owned hw' ho
    exact ⟨hj, w', (List.mem_filter.mp hm).1, rfl, rfl, Int.le_refl _, ho⟩
  · obtain ⟨hm, hj⟩ := disown_owned hw' ho
    have hid' : ∀ w ∈ consume job wakes, w.id < id := fun w hw => hid w (List.mem_filter.mp hw).1
    obtain ⟨w, hw, hi, hjob, hd, how, -⟩ := schedule_owned hr hid' hm ho
    exact ⟨hj, w, (List.mem_filter.mp hw).1, hi, hjob, hd, how⟩

theorem finished_ids (hid : ∀ w ∈ wakes, w.id < id) (hw' : w' ∈ rows) : w'.id < id + 1 := by
  rcases finished_cases h with ⟨-, rfl⟩ | ⟨at_, -, rfl⟩ | ⟨-, rfl⟩ | ⟨next, new, r, -, -, hr, rfl⟩
  · obtain ⟨w, hw, he⟩ := disown_ids hw'
    have := hid w hw
    omega
  · obtain ⟨w, hw, he⟩ := disown_ids hw'
    obtain ⟨w₀, hw₀, he₀, -⟩ := retry_ids hw
    have := hid w₀ hw₀
    omega
  · obtain ⟨w, hw, he⟩ := disown_ids hw'
    have := hid w (List.mem_filter.mp hw).1
    omega
  · obtain ⟨w, hw, he⟩ := disown_ids hw'
    have := schedule_ids hr (fun w hw => hid w (List.mem_filter.mp hw).1) hw
    omega

/-- A finish drops a row only where it completed the run that owns it. -/
theorem finished_drops (hw : w ∈ wakes) (hgone : ∀ w' ∈ rows, ¬ SameRow w' w) :
    w.job = job ∧ w.owned = true ∧ ∃ next, change = some (.completed next) := by
  rcases finished_cases h with ⟨-, rfl⟩ | ⟨at_, -, rfl⟩ | ⟨hc, rfl⟩ | ⟨next, new, r, hc, -, hr, rfl⟩
  · obtain ⟨w', hw', he⟩ := disown_keeps hw
    exact absurd he (hgone w' hw')
  · obtain ⟨w₁, hw₁, he₁⟩ := retry_keeps hw
    obtain ⟨w', hw', he⟩ := disown_keeps hw₁
    exact absurd (he.trans he₁) (hgone w' hw')
  · by_contra hne
    have hkept := consume_keeps hw (fun hj => hne ⟨hj.1, hj.2, none, hc⟩)
    obtain ⟨w', hw', he⟩ := disown_keeps hkept
    exact hgone w' hw' he
  · by_contra hne
    have hkept := consume_keeps hw (fun hj => hne ⟨hj.1, hj.2, some next, hc⟩)
    obtain ⟨w₁, hw₁, he₁, -⟩ := (schedule_keeps hr).1 w hkept
    obtain ⟨w', hw', he⟩ := disown_keeps hw₁
    exact hgone w' hw' (he.trans he₁)

end

/-! ## Steps -/

/-- The transaction starts or ends a run of `job`. -/
def Ev.Bounds (job : String) : Ev → Prop
  | .took job' _ => job' = job
  | .finished fence _ => fence.job = job
  | .reaped job' => job' = job
  | _ => False

/-- The transaction wrote the row `id` and was no cron merge into it. -/
def Ev.Writes (id : Nat) : Ev → Prop
  | .scheduled new row merged => row.id = id ∧ ¬ (new.reason = .cron ∧ merged = true)
  | _ => False

def Fresh (s : St) : Prop := ∀ w ∈ s.wakes, w.id < s.nextId

theorem step_fresh (h : Step s ev s') (hf : Fresh s) : Fresh s' := by
  intro w' hw'
  cases h with
  | tick later _ => exact hf w' hw'
  | register job now _ => exact hf w' hw'
  | schedule new r hr => exact schedule_ids hr hf hw'
  | acquire job holder leaseMs attemptMs now l _ _ =>
    obtain ⟨w, hw, rfl⟩ := List.mem_map.mp hw'
    have := hf w hw
    split
    · exact this
    · exact this
  | tryAcquire job holder leaseMs attemptMs now l _ _ =>
    obtain ⟨w, hw, rfl⟩ := List.mem_map.mp hw'
    have := hf w hw
    split
    · exact this
    · exact this
  | renew fence holder leaseMs attemptMs now l _ _ => exact hf w' hw'
  | finish fence outcome given change now l rows _ _ _ hr => exact finished_ids hr hf hw'
  | reap job now l _ _ =>
    obtain ⟨w, hw, he⟩ := disown_ids hw'
    rw [← he]
    exact hf w hw
  | rearm fence candidate rows hr =>
    have hdrop : ∀ w ∈ dropClaim fence.job (claimKey fence.job) s.wakes, w.id < s.nextId :=
      fun w hw => hf w (List.mem_filter.mp hw).1
    rcases rearmed_cases hr with rfl | ⟨new, r, hs, rfl⟩
    · exact Nat.lt_succ_of_lt (hdrop w' hw')
    · exact schedule_ids hs hdrop hw'
  | rearmLost fence candidate => exact hf w' hw'
  | nothing => exact hf w' hw'

theorem own_owned {start : Option Int} (hw' : w' ∈ own job start wakes) (ho : w'.owned = true) :
    (w' ∈ wakes ∧ w'.job ≠ job) ∨ (w'.job = job ∧ ∃ t, start = some t ∧ w'.dueAt ≤ t) := by
  obtain ⟨w, hw, rfl⟩ := List.mem_map.mp hw'
  by_cases e : w.job = job
  · simp only [e, if_true, Option.any_eq_true, decide_eq_true_eq] at ho ⊢
    exact Or.inr ⟨trivial, ho⟩
  · simp only [e, if_false] at ho ⊢
    exact Or.inl ⟨hw, e⟩

/-- Where an owned wake comes from. -/
theorem step_owned (h : Step s ev s') (hf : Fresh s) (hw' : w' ∈ s'.wakes) (ho : w'.owned = true) :
    (∃ w ∈ s.wakes, w'.id = w.id ∧ w'.job = w.job ∧ w'.dueAt ≤ w.dueAt ∧ w.owned = true ∧ ¬ ev.Bounds w.job ∧ ¬ ev.Writes w.id) ∨
      ∃ start, ev = .took w'.job start ∧ w'.dueAt ≤ epochMs start := by
  have same : w' ∈ s.wakes → ¬ ev.Bounds w'.job → ¬ ev.Writes w'.id → ∃ w ∈ s.wakes, w'.id = w.id ∧ w'.job = w.job ∧
      w'.dueAt ≤ w.dueAt ∧ w.owned = true ∧ ¬ ev.Bounds w.job ∧ ¬ ev.Writes w.id :=
    fun hw hb hwr => ⟨w', hw, rfl, rfl, Int.le_refl _, ho, hb, hwr⟩
  have taken : ∀ {job : String} {now : Time} {l : Lease}, ev = .took job now → l.lastStartedAt = some now →
      w' ∈ own job (l.lastStartedAt.map epochMs) s.wakes →
      (∃ w ∈ s.wakes, w'.id = w.id ∧ w'.job = w.job ∧ w'.dueAt ≤ w.dueAt ∧ w.owned = true ∧ ¬ ev.Bounds w.job ∧
        ¬ ev.Writes w.id) ∨ ∃ start, ev = .took w'.job start ∧ w'.dueAt ≤ epochMs start := by
    intro job now l hev hl hmem
    rcases own_owned hmem ho with ⟨hw, hj⟩ | ⟨hj, t, ht, hd⟩
    · left
      subst hev
      exact same hw (fun hb => hj hb.symm) (fun hb => hb)
    · rw [hl] at ht
      cases ht
      exact Or.inr ⟨now, by rw [hj]; exact hev, hd⟩
  cases h with
  | tick later _ => exact Or.inl (same hw' (fun hb => hb) (fun hb => hb))
  | register job now _ => exact Or.inl (same hw' (fun hb => hb) (fun hb => hb))
  | schedule new r hr =>
    obtain ⟨w, hw, hi, hj, hd, how, hc⟩ := schedule_owned hr hf hw' ho
    exact Or.inl ⟨w, hw, hi, hj, hd, how, fun hb => hb, fun hb => hb.2 (hc hb.1)⟩
  | acquire job holder leaseMs attemptMs now l _ ha => exact taken rfl (acquire_taken ha).2.1 hw'
  | tryAcquire job holder leaseMs attemptMs now l _ ha => exact taken rfl (acquire_taken (tryAcquire_eq ha)).2.1 hw'
  | renew fence holder leaseMs attemptMs now l _ _ => exact Or.inl (same hw' (fun hb => hb) (fun hb => hb))
  | finish fence outcome given change now l rows _ _ _ hr =>
    obtain ⟨hne, w, hw, hi, hj, hd, how⟩ := finished_owned hr hf hw' ho
    exact Or.inl ⟨w, hw, hi, hj, hd, how, fun hb => hne (hj.trans hb.symm), fun hb => hb⟩
  | reap job now l _ _ =>
    obtain ⟨hw, hj⟩ := disown_owned hw' ho
    exact Or.inl (same hw (fun hb => hj hb.symm) (fun hb => hb))
  | rearm fence candidate rows hr =>
    left
    have hdrop : ∀ w ∈ dropClaim fence.job (claimKey fence.job) s.wakes, w.id < s.nextId :=
      fun w hw => hf w (List.mem_filter.mp hw).1
    rcases rearmed_cases hr with rfl | ⟨new, r, hs, rfl⟩
    · exact same (List.mem_filter.mp hw').1 (fun hb => hb) (fun hb => hb)
    · obtain ⟨w, hw, hi, hj, hd, how, -⟩ := schedule_owned hs hdrop hw' ho
      exact ⟨w, (List.mem_filter.mp hw).1, hi, hj, hd, how, fun hb => hb, fun hb => hb⟩
  | rearmLost fence candidate => exact Or.inl (same hw' (fun hb => hb) (fun hb => hb))
  | nothing => exact Or.inl (same hw' (fun hb => hb) (fun hb => hb))

/-- How a wake goes: with the finish that completes the run owning it, or as its job's claim
    wake. -/
theorem step_deleted (h : Step s ev s') (hw : w ∈ s.wakes) (hgone : ∀ w' ∈ s'.wakes, ¬ SameRow w' w) :
    (∃ fence next l, ev = .finished fence (some (.completed next)) ∧ fence.job = w.job ∧ w.owned = true ∧
      s.leases.lookup w.job = some l ∧ Holds fence l) ∨
      (ev = .rearmed w.job ∧ w.dedupe = some (claimKey w.job)) := by
  have owned : ∀ {job : String} {start : Option Int}, ¬ ∀ w' ∈ own job start s.wakes, ¬ SameRow w' w := by
    intro job start hno
    refine hno _ (List.mem_map.mpr ⟨w, hw, rfl⟩) ?_
    split <;> exact ⟨rfl, rfl, rfl⟩
  cases h with
  | tick later _ => exact absurd ⟨rfl, rfl, rfl⟩ (hgone w hw)
  | register job now _ => exact absurd ⟨rfl, rfl, rfl⟩ (hgone w hw)
  | schedule new r hr =>
    obtain ⟨w', hw', he, -⟩ := (schedule_keeps hr).1 w hw
    exact absurd he (hgone w' hw')
  | acquire job holder leaseMs attemptMs now l _ _ => exact absurd hgone owned
  | tryAcquire job holder leaseMs attemptMs now l _ _ => exact absurd hgone owned
  | renew fence holder leaseMs attemptMs now l _ _ => exact absurd ⟨rfl, rfl, rfl⟩ (hgone w hw)
  | finish fence outcome given change now l rows _ _ hl hr =>
    obtain ⟨hj, ho, next, rfl⟩ := finished_drops hr hw hgone
    obtain ⟨l', hl', hh, -⟩ := finish_freed hl
    exact Or.inl ⟨fence, next, l', rfl, hj.symm, ho, by rw [hj]; exact hl', hh⟩
  | reap job now l _ _ =>
    obtain ⟨w', hw', he⟩ := disown_keeps hw
    exact absurd he (hgone w' hw')
  | rearm fence candidate rows hr =>
    right
    by_contra hne
    have hkept : w ∈ dropClaim fence.job (claimKey fence.job) s.wakes := by
      refine List.mem_filter.mpr ⟨hw, ?_⟩
      by_cases hj : w.job = fence.job
      · by_cases hd : w.dedupe = some (claimKey fence.job)
        · exact absurd ⟨by rw [hj], by rw [hj]; exact hd⟩ hne
        · simp [hd]
      · simp [hj]
    rcases rearmed_cases hr with rfl | ⟨new, r, hs, rfl⟩
    · exact hgone w hkept ⟨rfl, rfl, rfl⟩
    · obtain ⟨w', hw', he, -⟩ := (schedule_keeps hs).1 w hkept
      exact hgone w' hw' he
  | rearmLost fence candidate => exact absurd ⟨rfl, rfl, rfl⟩ (hgone w hw)
  | nothing => exact absurd ⟨rfl, rfl, rfl⟩ (hgone w hw)

/-! ## Runs -/

/-- The run that holds the job took its lease at `start`, when the wake was due, and since
    then nothing but cron merges wrote the wake. -/
def OwnedSince (evs : List Ev) (w : Wake) : Prop :=
  ∃ older newer start, evs = older ++ .took w.job start :: newer ∧ 1000 * w.dueAt ≤ start ∧
    ∀ ev ∈ newer, ¬ ev.Bounds w.job ∧ ¬ ev.Writes w.id

theorem run_owned (h : Run Step init evs s) : Fresh s ∧ ∀ w ∈ s.wakes, w.owned = true → OwnedSince evs w := by
  refine h.history (P := fun evs s => Fresh s ∧ ∀ w ∈ s.wakes, w.owned = true → OwnedSince evs w) ⟨?_, ?_⟩ ?_
  · intro w hw; cases hw
  · intro w hw; cases hw
  · intro evs s ev s' hi hs
    refine ⟨step_fresh hs hi.1, ?_⟩
    intro w' hw' ho
    rcases step_owned hs hi.1 hw' ho with ⟨w, hw, hid, hj, hd, how, hb, hwr⟩ | ⟨start, rfl, hd⟩
    · obtain ⟨older, newer, start, rfl, hstart, hnewer⟩ := hi.2 w hw how
      refine ⟨older, newer ++ [ev], start, by simp [hj], by omega, ?_⟩
      intro e he
      rw [hj, hid]
      rcases List.mem_append.mp he with he | he
      · exact hnewer e he
      · rw [List.mem_singleton.mp he]; exact ⟨hb, hwr⟩
    · refine ⟨evs, [], start, rfl, ?_, by simp⟩
      unfold epochMs at hd
      omega

/-- A wake a run's finish deletes was due when that run took its lease, and since then only
    cron merges wrote it. -/
theorem deleted_by_its_run (h : Run Step init evs s) (hs : Step s ev s') (hw : w ∈ s.wakes)
    (hkey : w.dedupe ≠ some (claimKey w.job)) (hgone : ∀ w' ∈ s'.wakes, ¬ SameRow w' w) :
    (∃ fence next l, ev = .finished fence (some (.completed next)) ∧ fence.job = w.job ∧
      s.leases.lookup w.job = some l ∧ Holds fence l) ∧ OwnedSince evs w := by
  rcases step_deleted hs hw hgone with ⟨fence, next, l, hev, hj, ho, hl, hh⟩ | ⟨-, hd⟩
  · exact ⟨⟨fence, next, l, hev, hj, hl, hh⟩, (run_owned h).2 w hw ho⟩
  · exact absurd hd hkey

/-- The last transaction that took a job's lease is where its current run began. -/
theorem took_unique {older older' newer newer' : List Ev} {start start' : Time}
    (he : older ++ .took job start :: newer = older' ++ .took job start' :: newer') (hn : ∀ ev ∈ newer, ¬ ev.Bounds job)
    (hn' : ∀ ev ∈ newer', ¬ ev.Bounds job) : newer = newer' := by
  rcases List.append_eq_append_iff.mp he with ⟨mid, rfl, hmid⟩ | ⟨mid, rfl, hmid⟩
  · cases mid with
    | nil => simp at hmid; exact hmid.2
    | cons ev mid =>
      simp only [List.cons_append, List.cons.injEq] at hmid
      exact absurd rfl (hn (.took job start') (by rw [hmid.2]; simp))
  · cases mid with
    | nil => simp at hmid; exact hmid.2.symm
    | cons ev mid =>
      simp only [List.cons_append, List.cons.injEq] at hmid
      exact absurd rfl (hn' (.took job start) (by rw [hmid.2]; simp))

/-- A wake stays until the finish of its job's run. -/
theorem run_keeps {m : St} (h : Run Step m evs s) (hw : w ∈ m.wakes) (hkey : w.dedupe ≠ some (claimKey w.job))
    (hno : ∀ ev ∈ evs, ¬ ev.Bounds w.job) : ∃ w' ∈ s.wakes, SameRow w' w := by
  induction h with
  | nil => exact ⟨w, hw, rfl, rfl, rfl⟩
  | snoc _ hs ih =>
    obtain ⟨w₁, hw₁, he₁⟩ := ih (fun ev hev => hno ev (List.mem_append_left _ hev))
    by_contra hne
    have hgone : ∀ w' ∈ _, ¬ SameRow w' w₁ := fun w' hw' he => hne ⟨w', hw', he.trans he₁⟩
    rcases step_deleted hs hw₁ hgone with ⟨fence, next, l, rfl, hj, -⟩ | ⟨-, hd⟩
    · exact hno (.finished fence (some (.completed next))) (by simp) (hj.trans he₁.2.1)
    · rw [he₁.2.1, he₁.2.2] at hd
      exact hkey hd

/-- A wake scheduled or merged into, not by a cron merge, after a run took its job's lease
    survives that run's finish. -/
theorem scheduled_survives {older mid tail : List Ev} {start : Time} {row : Wake} {merged : Bool} {fence : LeaseFence}
    (h : Run Step init (older ++ .took row.job start :: (mid ++ .scheduled new row merged :: tail)) s)
    (hno : ∀ ev ∈ mid ++ .scheduled new row merged :: tail, ¬ ev.Bounds row.job)
    (hcron : ¬ (new.reason = .cron ∧ merged = true)) (hkey : row.dedupe ≠ some (claimKey row.job))
    (hs : Step s (.finished fence change) s') : ∃ w ∈ s'.wakes, SameRow w row := by
  have hrow : ∃ w ∈ s.wakes, SameRow w row := by
    obtain ⟨m₀, -, hb⟩ := h.split
    obtain ⟨m₁, -, hb⟩ := hb.split_cons
    obtain ⟨m, -, hb⟩ := hb.split
    obtain ⟨m', hstep, hb⟩ := hb.split_cons
    have hmem : row ∈ m'.wakes := by
      cases hstep with
      | schedule _ r hr => exact (schedule_keeps hr).2.1
    exact run_keeps hb hmem hkey (fun ev hev => hno ev (by simp [hev]))
  obtain ⟨w, hw, hsame⟩ := hrow
  by_contra hne
  have hgone : ∀ w' ∈ s'.wakes, ¬ SameRow w' w := fun w' hw' he => hne ⟨w', hw', he.trans hsame⟩
  have hkey' : w.dedupe ≠ some (claimKey w.job) := by rw [hsame.2.1, hsame.2.2]; exact hkey
  obtain ⟨-, older', newer', start', he, -, hnewer⟩ := deleted_by_its_run h hs hw hkey' hgone
  rw [hsame.2.1] at he hnewer
  have hsplit := took_unique he hno (fun ev hev => (hnewer ev hev).1)
  refine (hnewer (.scheduled new row merged) (by rw [← hsplit]; simp)).2 ⟨?_, hcron⟩
  rw [hsame.1]

/-! ## The next wake -/

theorem min?_le {xs : List Int} {m : Int} (h : xs.min? = some m) : ∀ x ∈ xs, m ≤ x :=
  (List.min?_eq_some_iff.mp h).2

theorem min?_of_mem {xs : List Int} {x : Int} (h : x ∈ xs) : ∃ m, xs.min? = some m ∧ m ≤ x := by
  cases hm : xs.min? with
  | none => rw [List.min?_eq_none_iff.mp hm] at h; cases h
  | some m => exact ⟨m, rfl, min?_le hm x h⟩

theorem mem_heldExpiries {l : Lease} (hl : s.leases.lookup job = some l) (hh : l.holder ≠ none) :
    l.expiresAt ∈ heldExpiries s :=
  List.mem_filterMap.mpr ⟨⟨job, l⟩, AList.mem_lookup_iff.mp hl, by simp [hh]⟩

theorem next_le_held {l : Lease} (hl : s.leases.lookup job = some l) (hh : l.holder ≠ none) :
    ∃ n, next s = some n ∧ 1000 * n ≤ l.expiresAt := by
  obtain ⟨m, hm, hle⟩ := min?_of_mem (mem_heldExpiries hl hh)
  have hmem : epochMs m ∈ nextCandidates s := by simp [nextCandidates, List.mem_filterMap, hm]
  obtain ⟨n, hn, hnle⟩ := min?_of_mem hmem
  refine ⟨n, hn, ?_⟩
  unfold epochMs at hnle
  omega

theorem next_le_wake (hw : w ∈ s.wakes) (hs : startable s w = true) : ∃ n, next s = some n ∧ n ≤ w.dueAt := by
  have hmem : w.dueAt ∈ (s.wakes.filter (startable s)).map Wake.dueAt :=
    List.mem_map.mpr ⟨w, List.mem_filter.mpr ⟨hw, hs⟩, rfl⟩
  obtain ⟨m, hm, hle⟩ := min?_of_mem hmem
  have hmem' : m ∈ nextCandidates s := by simp [nextCandidates, List.mem_filterMap, earliestWake, hm]
  obtain ⟨n, hn, hnle⟩ := min?_of_mem hmem'
  exact ⟨n, hn, by omega⟩

/-- Wherever a wake or a held lease exists there is a next wake, no later than any wake whose
    job could start and than any held lease's expiry. -/
theorem next_bound (s : St) (h : s.wakes ≠ [] ∨ ∃ job l, s.leases.lookup job = some l ∧ l.holder ≠ none) :
    ∃ n, next s = some n ∧ (∀ w ∈ s.wakes, startable s w = true → n ≤ w.dueAt) ∧
      ∀ job l, s.leases.lookup job = some l → l.holder ≠ none → 1000 * n ≤ l.expiresAt := by
  have hsome : ∃ n, next s = some n := by
    rcases h with h | ⟨job, l, hl, hh⟩
    · obtain ⟨w, hw⟩ := List.exists_mem_of_ne_nil _ h
      cases hst : startable s w with
      | true => obtain ⟨n, hn, -⟩ := next_le_wake hw hst; exact ⟨n, hn⟩
      | false =>
        -- The wake's job is held and its lease unexpired: the lease is what wakes the scheduler.
        unfold startable at hst
        split at hst
        · cases hst
        · rename_i l hl
          obtain ⟨n, hn, -⟩ := next_le_held hl (fun hh => by simp [hh] at hst)
          exact ⟨n, hn⟩
    · obtain ⟨n, hn, -⟩ := next_le_held hl hh
      exact ⟨n, hn⟩
  obtain ⟨n, hn⟩ := hsome
  refine ⟨n, hn, ?_, ?_⟩
  · intro w hw hst
    obtain ⟨n', hn', hle⟩ := next_le_wake hw hst
    rw [hn] at hn'
    cases hn'
    exact hle
  · intro job l hl hh
    obtain ⟨n', hn', hle⟩ := next_le_held hl hh
    rw [hn] at hn'
    cases hn'
    exact hle

/-! ## No pending work is lost -/

/-- In every run: a wake, but its job's claim wake, is deleted only by the finish of the run
    that took the lease when it was due, and after that nothing but cron merges wrote it;
    what any other schedule wrote since survives that finish. A merge never makes a wake due
    later, and the next wake is never missed. -/
theorem pending_work_kept :
    (∀ (evs : List Ev) (ev : Ev) (s s' : St) (w : Wake), Run Step init evs s → Step s ev s' → w ∈ s.wakes →
      w.dedupe ≠ some (claimKey w.job) → (∀ w' ∈ s'.wakes, ¬ SameRow w' w) →
      (∃ fence next l, ev = .finished fence (some (.completed next)) ∧ fence.job = w.job ∧
        s.leases.lookup w.job = some l ∧ Holds fence l) ∧ OwnedSince evs w) ∧
    (∀ (older mid tail : List Ev) (start : Time) (new : NewWake) (row : Wake) (merged : Bool) (s s' : St)
      (fence : LeaseFence) (change : Option FinishWakes),
      Run Step init (older ++ .took row.job start :: (mid ++ .scheduled new row merged :: tail)) s →
      (∀ ev ∈ mid ++ .scheduled new row merged :: tail, ¬ ev.Bounds row.job) → ¬ (new.reason = .cron ∧ merged = true) →
      row.dedupe ≠ some (claimKey row.job) → Step s (.finished fence change) s' → ∃ w ∈ s'.wakes, SameRow w row) ∧
    (∀ (s s' : St) (new : NewWake) (row : Wake) (merged : Bool), Step s (.scheduled new row merged) s' →
      (∀ w ∈ s.wakes, ∃ w' ∈ s'.wakes, SameRow w' w ∧ w'.dueAt ≤ w.dueAt) ∧ row ∈ s'.wakes ∧ row.dueAt ≤ new.dueAt) ∧
    (∀ s : St, s.wakes ≠ [] ∨ (∃ job l, s.leases.lookup job = some l ∧ l.holder ≠ none) →
      ∃ n, next s = some n ∧ (∀ w ∈ s.wakes, startable s w = true → n ≤ w.dueAt) ∧
        ∀ job l, s.leases.lookup job = some l → l.holder ≠ none → 1000 * n ≤ l.expiresAt) := by
  refine ⟨fun evs ev s s' w h hs hw hkey hgone => deleted_by_its_run h hs hw hkey hgone, ?_, ?_, next_bound⟩
  · intro older mid tail start new row merged s s' fence change h hno hcron hkey hs
    exact scheduled_survives h hno hcron hkey hs
  · intro s s' new row merged hs
    cases hs with
    | schedule _ r hr => exact schedule_keeps hr

/-! ## A cron merge leaves the mark -/

def kick : NewWake := ⟨"j", .kick, 0, some "k", by decide⟩

def cronOfSameKey : NewWake := ⟨"j", .cron, 5, some "k", by decide⟩

def kickRow : Wake := ⟨0, "j", .kick, 0, 0, some "k", false⟩

def heldLease : Lease := ⟨1, some "a", 1000, 1000, 0, some 0, none, none, none, none, none⟩

def freedLease : Lease := ⟨1, none, 1000, 1000, 0, some 0, some 0, some .succeeded, some 0, some 0, none⟩

def kicked : St := { init with wakes := [kickRow], nextId := 1 }

def running : St := { kicked with leases := init.leases.insert "j" heldLease, wakes := [{ kickRow with owned := true }] }

def mergedInto : St := { running with nextId := 2 }

def done : St := { mergedInto with leases := mergedInto.leases.insert "j" freedLease, wakes := [], nextId := 3 }

theorem running_run : Run Step init [.scheduled kick kickRow false, .took "j" 0] running := by
  have h₁ : Step init _ _ := .schedule init kick ⟨[kickRow], kickRow, false⟩ rfl
  have h₂ : Step kicked (.took "j" 0) running := .acquire kicked "j" "a" oneMs oneMs 0 heldLease (by decide) rfl
  exact (Run.nil.snoc h₁).snoc h₂

theorem merged_run : Run Step init
    [.scheduled kick kickRow false, .took "j" 0, .scheduled cronOfSameKey { kickRow with owned := true } true] mergedInto :=
  running_run.snoc (.schedule running cronOfSameKey ⟨[{ kickRow with owned := true }], { kickRow with owned := true }, true⟩ rfl)

theorem done_step : Step mergedInto (.finished ⟨"j", "a", 1⟩ (some (.completed none))) done :=
  .finish mergedInto ⟨"j", "a", 1⟩ .succeeded none (some (.completed none)) 0 freedLease [] (by decide) rfl (by decide) rfl

/-- A kick's row a run owns, merged into by a cron wake of the same key after the run took its
    lease, goes with that run's finish. -/
theorem a_cron_merge_is_consumed : ¬ ∀ (older mid tail : List Ev) (start : Time) (new : NewWake) (row : Wake) (merged : Bool)
    (s s' : St) (fence : LeaseFence) (change : Option FinishWakes),
    Run Step init (older ++ .took row.job start :: (mid ++ .scheduled new row merged :: tail)) s →
    (∀ ev ∈ mid ++ .scheduled new row merged :: tail, ¬ ev.Bounds row.job) → row.reason = .kick →
    Step s (.finished fence change) s' → ∃ w ∈ s'.wakes, SameRow w row := by
  intro hall
  obtain ⟨w, hw, -⟩ := hall [.scheduled kick kickRow false] [] [] 0 cronOfSameKey { kickRow with owned := true } true
    mergedInto done ⟨"j", "a", 1⟩ (some (.completed none)) merged_run (by intro ev hev; simp at hev; subst hev; exact fun h => h)
    rfl done_step
  cases hw

def secondKick : NewWake := ⟨"j", .kick, 5, some "k", by decide⟩

def kickedAgain : St := { running with wakes := [kickRow], nextId := 2 }

def kept : St := { kickedAgain with leases := kickedAgain.leases.insert "j" freedLease, nextId := 3 }

/-- The same run with a second kick in place of the cron wake: the row survives. -/
theorem a_kick_merge_survives :
    Step kickedAgain (.finished ⟨"j", "a", 1⟩ (some (.completed none))) kept ∧ ∃ w ∈ kept.wakes, SameRow w kickRow := by
  have hrun : Run Step init [.scheduled kick kickRow false, .took "j" 0, .scheduled secondKick kickRow true] kickedAgain :=
    running_run.snoc (.schedule running secondKick ⟨[kickRow], kickRow, true⟩ rfl)
  have hstep : Step kickedAgain (.finished ⟨"j", "a", 1⟩ (some (.completed none))) kept :=
    .finish kickedAgain ⟨"j", "a", 1⟩ .succeeded none (some (.completed none)) 0 freedLease [kickRow] (by decide) rfl
      (by decide) rfl
  refine ⟨hstep, (pending_work_kept).2.1 [.scheduled kick kickRow false] [] [] 0 secondKick kickRow true kickedAgain kept
    ⟨"j", "a", 1⟩ (some (.completed none)) hrun ?_ (by decide) (by decide) hstep⟩
  intro ev hev
  simp at hev
  subst hev
  exact fun h => h

end Fabrika.Db.JobWakes
