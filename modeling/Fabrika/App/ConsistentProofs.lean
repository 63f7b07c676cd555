/-
  Fabrika.App.ConsistentProofs — a consistent dump reads one database state (see
  `Fabrika.App.Consistent`).

  A dump is bound to the stretch its `begin` saw. A write ends that stretch for good (`Dead`): no
  instance, alive or to come, finds it in memory or in R2 again. Of an ordinary write that is so
  because the object was open at a later generation; of an import's or a rewind's it is so only if
  no dump began at the generation it writes at, nor at the stretch R2 still records for it.
-/

import Fabrika.App.Consistent
import Fabrika.App.MaintenanceFence

namespace Fabrika.App.Consistent

open Fabrika.Lib Fabrika.AuthCore.OpsState Fabrika.App.Maintenance

variable {V : Type} {etag : Nat → OpsPublishedState → V} {s s' : System V} {event : Maintenance.Event}

/-! ## Generations the object has reached -/

def LifeReached (generation : Nat) : Life V → Prop
  | .absent => True
  | .loading found => ∃ f, found = some f ∧ generation ≤ f.state.generation
  | .alive i => stamp (some generation) ≤ stamp i.barrier.generation

/-- R2 and the instance are at this generation or past it. -/
def Reached (s : System V) (generation : Nat) : Prop :=
  (∃ c ∈ s.history, generation ≤ c.generation) ∧ LifeReached generation s.life

theorem step_reached [DecidableEq V] {generation : Nat} (h : Ordered etag s) (hmove : Moves etag s event s')
    (hreached : Reached s generation) :
    Reached s' generation := by
  obtain ⟨⟨c, hc, hle⟩, hlife⟩ := hreached
  have hsub : s.history ⊆ s'.history := (step_grows hmove).1.subset
  refine ⟨⟨c, hsub hc, hle⟩, ?_⟩
  cases hs' : s'.life with
  | absent => exact trivial
  | loading found =>
    cases hmove with
    | load habsent =>
      cases hs'
      obtain ⟨last, hlast, hfollows⟩ := follows_holds etag h.history hc
      obtain ⟨f, hf, rfl⟩ := Option.map_eq_some_iff.mp hlast
      exact ⟨f, hf, Nat.le_trans hle hfollows.generation_le⟩
    | idle | lateState | lateFrozen =>
      have hsame : s.life = .loading found := hs'
      rw [hsame] at hlife
      exact hlife
    | _ => cases hs'
  | alive i' =>
    rcases step_alive hmove hs' with ⟨i, hi⟩ | ⟨found, frozen, hloading, _, rfl⟩
    · rw [hi] at hlife
      exact Nat.le_trans hlife (step_later h hmove hi hs').generation
    · rw [hloading] at hlife
      obtain ⟨f, rfl, hf⟩ := hlife
      simpa [LifeReached, stamp, load] using hf

/-! ## The stretch in memory and the record of it -/

/-- Memory is open only at a published state, and then in no stretch. -/
structure Memory (history : List OpsPublishedState) (b : Barrier V) : Prop where
  openNone : b.mode = .open → b.frozenSince = none
  openHeld : b.mode = .open → ∀ g, b.generation = some g → ⟨g, .open⟩ ∈ history
  sinceLe : ∀ since, b.frozenSince = some since → stamp (some since) ≤ stamp b.generation

def StageOk (history : List OpsPublishedState) (b : Barrier V) : Stage V → Prop
  | .freezing request record _ =>
    request.mode ≠ .open ∧ record.generation = request.generation ∧ b.frozenSince = some record.since
  | .marking record _ => (∃ c ∈ history, b.current = some c ∧ c.mode ≠ .open ∧ record.generation = c.generation) ∧
      b.frozenSince = some record.since ∧ record.since = record.generation
  | .working cleared => (∃ c ∈ history, b.current = some c) ∧ (cleared = true → b.mode ≠ .open → b.frozenSince = b.generation)
  | _ => True

structure InstanceOk (history : List OpsPublishedState) (i : Instance V) : Prop where
  memory : Memory history i.barrier
  turn : ∀ stage, i.turn = some stage → StageOk history i.barrier stage

structure Stretches (s : System V) : Prop where
  /-- R2's record is of a state it held that writes nothing, which the object has reached. -/
  record : ∀ record, s.frozen = some record →
    (∃ c ∈ s.history, c.mode ≠ .open ∧ record.generation = c.generation) ∧ Reached s record.generation
  alive : ∀ i, s.life = .alive i → InstanceOk s.history i

variable {history history' : List OpsPublishedState} {frozen : Option FrozenRecord} {since : Nat}
variable {dump bookmark uploadId : String}

variable {b : Barrier V} {i i' : Instance V}

theorem Memory.mono (h : Memory history b) (hsub : history ⊆ history') :
    Memory history' b := ⟨h.openNone, fun hopen g hg => hsub (h.openHeld hopen g hg), h.sinceLe⟩

theorem StageOk.mono {stage : Stage V} (h : StageOk history b stage) (hsub : history ⊆ history') :
    StageOk history' b stage := by
  cases stage with
  | marking record landed =>
    obtain ⟨⟨c, hc, hrest⟩, hsince⟩ := h
    exact ⟨⟨c, hsub hc, hrest⟩, hsince⟩
  | working cleared =>
    obtain ⟨⟨c, hc, hcurrent⟩, hcleared⟩ := h
    exact ⟨⟨c, hsub hc, hcurrent⟩, hcleared⟩
  | _ => exact h

/-- Memory's state, generation and stretch left alone. -/
structure SameMemory (b b' : Barrier V) : Prop where
  mode : b'.mode = b.mode
  generation : b'.generation = b.generation
  frozenSince : b'.frozenSince = b.frozenSince

theorem Memory.same {b' : Barrier V} (h : Memory history b) (hsame : SameMemory b b') : Memory history b' := by
  refine ⟨?_, ?_, ?_⟩
  · rw [hsame.mode, hsame.frozenSince]
    exact h.openNone
  · rw [hsame.mode, hsame.generation]
    exact h.openHeld
  · rw [hsame.frozenSince, hsame.generation]
    exact h.sinceLe

theorem StageOk.same {b' : Barrier V} {stage : Stage V} (h : StageOk history b stage) (hsame : SameMemory b b') :
    StageOk history b' stage := by
  have hcurrent : b'.current = b.current := by
    unfold Barrier.current
    rw [hsame.generation, hsame.mode]
  cases stage <;> simp only [StageOk, hcurrent, hsame.mode, hsame.generation, hsame.frozenSince] at h ⊢ <;> exact h

theorem frozenOnLoad_le {state : OpsPublishedState} (h : frozenOnLoad state frozen = some since) : since ≤ state.generation := by
  unfold frozenOnLoad at h
  split at h
  · cases h
  · split at h
    · rename_i record
      split at h
      · rename_i hrecord
        cases h
        exact hrecord.2
      · cases h
        exact Nat.le_refl _
    · cases h
      exact Nat.le_refl _

theorem load_memory {found : Option (StoredMaintenance V)} (hfound : ∀ f, found = some f → f.state ∈ history) :
    Memory history (load found frozen) := by
  cases found with
  | none => exact ⟨fun _ => rfl, (fun _ _ hg => nomatch hg), (fun _ hs => nomatch hs)⟩
  | some f =>
    refine ⟨?_, ?_, ?_⟩
    · intro hopen
      have hmode : f.state.mode = .open := hopen
      simp [load, frozenOnLoad, hmode]
    · intro hopen g hg
      have hmode : f.state.mode = .open := hopen
      have hgen : f.state.generation = g := Option.some.inj hg
      have hstate : f.state = ⟨g, .open⟩ := by rw [← hgen, ← hmode]
      exact hstate ▸ hfound f rfl
    · intro since hsince
      have hsince : frozenOnLoad f.state frozen = some since := hsince
      show stamp (some since) ≤ stamp (some f.state.generation)
      have hle : since ≤ f.state.generation := frozenOnLoad_le hsince
      simpa [stamp] using hle

/-- An early return of `restrictedWrite` outside `open`: the stretch starts at this generation. -/
theorem restrictedWrite_none (h : b.restrictedWrite = none) (hmode : b.mode ≠ .open) (hheld : ∃ c ∈ history, b.current = some c) :
    b.frozenSince = b.generation := by
  obtain ⟨c, _, hcurrent⟩ := hheld
  obtain ⟨g, hg, _⟩ := Option.map_eq_some_iff.mp hcurrent
  unfold Barrier.restrictedWrite at h
  rw [if_neg hmode] at h
  rw [hg] at h ⊢
  dsimp only at h
  split at h
  · assumption
  · cases h

variable [DecidableEq V]

/-- Every step but one that lands a record leaves R2's record alone. -/
theorem frozen_kept (hmove : Moves etag s event s') (hlate : ∀ index record, event = .late index →
      s.late[index]? ≠ some (.frozen record))
    (hlands : event ≠ .frozenLands) : s'.frozen = s.frozen := by
  cases hmove with
  | lateFrozen index record hput => exact absurd hput (hlate index record rfl)
  | frozenLands | markLands => exact absurd rfl hlands
  | _ => rfl

omit [DecidableEq V] in
theorem InstanceOk.still (h : InstanceOk history i) (hsub : history ⊆ history') (hsame : SameMemory i.barrier i'.barrier)
    (hturn : ∀ stage, i'.turn = some stage → StageOk history' i.barrier stage) : InstanceOk history' i' :=
  ⟨(h.memory.mono hsub).same hsame, fun stage hs => (hturn stage hs).same hsame⟩

omit [DecidableEq V] in
theorem rank_pos {mode mode' : OpsMode} (h : rank mode > rank mode') : mode ≠ .open := by
  intro heq
  rw [heq] at h
  exact absurd h (Nat.not_lt_zero _)

omit [DecidableEq V] in
theorem Memory.since_le {request : OpsPublishedState} (h : Memory history b)
    (hle : stamp b.generation ≤ stamp (some request.generation)) :
    ∀ since, b.frozenSince = some since → stamp (some since) ≤ stamp (some request.generation) :=
  fun since hsince => Nat.le_trans (h.sinceLe since hsince) hle

omit [DecidableEq V] in
theorem stamp_some_le {a b : Nat} : stamp (some a) ≤ stamp (some b) ↔ a ≤ b := by
  simp [stamp]

/-- An instance that was alive before keeps its memory in order. -/
theorem step_instance (h : Ordered etag s) (hmove : Moves etag s event s') (hlife : s.life = .alive i)
    (hlife' : s'.life = .alive i') (hi : InstanceOk s.history i) : InstanceOk s'.history i' := by
  have hsub : s.history ⊆ s'.history := (step_grows hmove).1.subset
  have halive := h.alive hlife
  cases hmove with
  | idle | lateFrozen =>
    have hsame : s.life = .alive i' := hlife'
    rw [hlife] at hsame
    cases hsame
    exact hi
  | lateState =>
    have hsame : s.life = .alive i' := hlife'
    rw [hlife] at hsame
    cases hsame
    exact hi.still hsub ⟨rfl, rfl, rfl⟩ (fun stage hs => (hi.turn stage hs).mono hsub)
  | load habsent =>
    rw [habsent] at hlife
    cases hlife
  | loaded found frozen hloading _ =>
    rw [hloading] at hlife
    cases hlife
  | notLoaded | evicted => cases hlife'
  | aside _ j j' hj haside =>
    rw [hlife] at hj
    cases hj
    cases hlife'
    have hsame := haside.same
    refine hi.still hsub ⟨hsame.mode, hsame.generation, hsame.frozenSince⟩ ?_
    intro stage hs
    exact hi.turn stage (hsame.turn ▸ hs)
  | publish j request frozen b hj hturn hup =>
    rw [hlife] at hj
    cases hj
    cases hlife'
    obtain ⟨hpass, hb⟩ := takeUp_publish hup
    by_cases hrank : rank request.mode > rank i.barrier.mode
    · rw [if_pos hrank] at hb
      subst hb
      have hmode : request.mode ≠ .open := rank_pos hrank
      refine ⟨⟨fun hopen => absurd hopen hmode, fun hopen => absurd hopen hmode, ?_⟩, ?_⟩
      · exact hi.memory.since_le (stamp_le_of_accepts hpass)
      · intro stage hs
        cases hs
        exact trivial
    · rw [if_neg hrank] at hb
      subst hb
      refine hi.still hsub ⟨rfl, rfl, rfl⟩ ?_
      intro stage hs
      cases hs
      exact trivial
  | opened j request attempt version hj hturn hopen =>
    rw [hlife] at hj
    cases hj
    cases hlife'
    obtain ⟨_, hversion⟩ := halive.turn _ hturn
    have hmem : request ∈ s.history := (hversion version rfl).1
    refine ⟨⟨fun _ => rfl, ?_, (fun _ hs => nomatch hs)⟩, ?_⟩
    · intro _ g hg
      have hgen : request.generation = g := Option.some.inj hg
      have hrequest : request = ⟨g, .open⟩ := by rw [← hgen, ← hopen]
      exact hrequest ▸ hmem
    · intro stage hs
      cases hs
      exact trivial
  | restricted j request attempt version hj hturn hmode =>
    rw [hlife] at hj
    cases hj
    cases hlife'
    obtain ⟨hpass, _⟩ := halive.turn _ hturn
    refine ⟨⟨fun hopen => absurd hopen hmode, fun hopen => absurd hopen hmode, ?_⟩, ?_⟩
    · intro since hsince
      have hsince : some (i.barrier.frozenSince.getD request.generation) = some since := hsince
      show stamp (some since) ≤ stamp (some request.generation)
      rw [← hsince]
      cases hold : i.barrier.frozenSince with
      | none => exact Nat.le_refl _
      | some old => exact hi.memory.since_le (stamp_le_of_accepts hpass) old hold
    · intro stage hs
      cases hs
      exact ⟨hmode, rfl, rfl⟩
  | adopted j request attempt found hj hturn hrefused =>
    rw [hlife] at hj
    cases hj
    cases hlife'
    obtain ⟨_, hseen⟩ := halive.turn _ hturn
    have hmem : found.state ∈ s.history := by
      rcases hseen with ⟨hnone, _⟩ | ⟨c, n, hc, _, hmem⟩
      · cases hnone
      · cases hc
        exact hmem
    refine ⟨⟨?_, ?_, ?_⟩, fun _ hs => nomatch hs⟩
    · intro hopen
      exact if_pos hopen
    · intro hopen g hg
      have hopen : found.state.mode = .open := hopen
      have hgen : found.state.generation = g := Option.some.inj hg
      have hstate : found.state = ⟨g, .open⟩ := by rw [← hgen, ← hopen]
      exact hstate ▸ hmem
    · intro since hsince
      have hsince : (if found.state.mode = .open then none else some found.state.generation) = some since := hsince
      split at hsince
      · cases hsince
      · cases hsince
        exact Nat.le_refl _
  | frozenLands j request record hj hturn =>
    rw [hlife] at hj
    cases hj
    cases hlife'
    refine hi.still hsub ⟨rfl, rfl, rfl⟩ ?_
    intro stage hs
    cases hs
    have hstage := hi.turn _ hturn
    exact hstage
  | markLands j record hj hturn =>
    rw [hlife] at hj
    cases hj
    cases hlife'
    refine hi.still hsub ⟨rfl, rfl, rfl⟩ ?_
    intro stage hs
    cases hs
    have hstage := hi.turn _ hturn
    exact hstage
  | marked j record hj hturn =>
    rw [hlife] at hj
    cases hj
    cases hlife'
    obtain ⟨⟨c, hc, hcurrent, _, hgen⟩, hsince, hsame⟩ := hi.turn _ hturn
    refine hi.still hsub ⟨rfl, rfl, rfl⟩ ?_
    intro stage hs
    cases hs
    refine ⟨⟨c, hc, hcurrent⟩, fun _ _ => ?_⟩
    obtain ⟨g, hg, hstate⟩ := Option.map_eq_some_iff.mp hcurrent
    rw [hsince, hg, hsame, hgen, ← hstate]
  | work j generation hj hturn hpublished _ =>
    rw [hlife] at hj
    cases hj
    cases hlife'
    obtain ⟨c, hstored, hcurrent⟩ := isPublished_iff.mp hpublished
    have hmem : c ∈ s.history := by
      rcases halive.seen with ⟨hnone, _⟩ | ⟨c', n, hc', _, hmem⟩
      · rw [hnone] at hstored
        cases hstored
      · rw [hstored] at hc'
        cases hc'
        exact hmem
    refine hi.still hsub ⟨rfl, rfl, rfl⟩ ?_
    intro stage hs
    cases hs
    refine ⟨⟨c, hmem, hcurrent⟩, ?_⟩
    intro hno
    cases hno
  | cleared j hj hturn hwrite =>
    rw [hlife] at hj
    cases hj
    cases hlife'
    obtain ⟨hheld, _⟩ := hi.turn _ hturn
    refine hi.still hsub ⟨rfl, rfl, rfl⟩ ?_
    intro stage hs
    cases hs
    exact ⟨hheld, fun _ hmode => restrictedWrite_none hwrite hmode hheld⟩
  | marks j b record hj hturn hwrite =>
    rw [hlife] at hj
    cases hj
    cases hlife'
    obtain ⟨⟨c, hc, hcurrent⟩, _⟩ := hi.turn _ hturn
    obtain ⟨generation, hmode, hgen, rfl, rfl⟩ := restrictedWrite_some hwrite
    refine ⟨⟨fun hopen => absurd hopen hmode, fun hopen => absurd hopen hmode, ?_⟩, ?_⟩
    · intro since hsince
      have hsince : some generation = some since := hsince
      show stamp (some since) ≤ stamp i.barrier.generation
      rw [← hsince, hgen]
    · intro stage hs
      cases hs
      have hstate : c = ⟨generation, i.barrier.mode⟩ := by
        have hsome : i.barrier.current = some ⟨generation, i.barrier.mode⟩ := by simp [Barrier.current, hgen]
        rw [hcurrent] at hsome
        exact Option.some.inj hsome
      refine ⟨⟨c, hc, hcurrent, ?_, ?_⟩, rfl, rfl⟩
      · rw [hstate]
        exact hmode
      · rw [hstate]
  | again j | putLands j | conflict j | readLands j | retried j | frozenAnswers j | frozenFails j =>
    have hj : s.life = .alive j := by assumption
    rw [hlife] at hj
    cases hj
    cases hlife'
    refine hi.still hsub ⟨rfl, rfl, rfl⟩ ?_
    intro stage hs
    cases hs
    exact trivial
  | refused j | putLost j | answerLost j | exhausted j | readLost j | markFails j | drained j | done j =>
    have hj : s.life = .alive j := by assumption
    rw [hlife] at hj
    cases hj
    cases hlife'
    refine hi.still hsub ⟨rfl, rfl, rfl⟩ ?_
    intro stage hs
    cases hs

omit [DecidableEq V] in
/-- The record a step lands: of memory's own stretch, at a published generation. -/
theorem record_landed {record : FrozenRecord} (h : Ordered etag s) (hlife : s.life = .alive i) (hi : InstanceOk s.history i)
    (hturn : (∃ request, i.turn = some (.freezing request record false)) ∨ i.turn = some (.marking record false)) :
    (∃ c ∈ s.history, c.mode ≠ .open ∧ record.generation = c.generation) ∧ Reached s record.generation ∧
      i.barrier.frozenSince = some record.since := by
  have hheld : ∃ c ∈ s.history, c.mode ≠ .open ∧ record.generation = c.generation ∧ i.barrier.current = some c ∧
      i.barrier.frozenSince = some record.since := by
    rcases hturn with ⟨request, hturn⟩ | hturn
    · obtain ⟨hmode, hgen, hsince⟩ := hi.turn _ hturn
      obtain ⟨hcurrent, hmem⟩ := (h.alive hlife).turn _ hturn
      exact ⟨request, hmem, hmode, hgen, hcurrent, hsince⟩
    · obtain ⟨⟨c, hc, hcurrent, hmode, hgen⟩, hsince, _⟩ := hi.turn _ hturn
      exact ⟨c, hc, hmode, hgen, hcurrent, hsince⟩
  obtain ⟨c, hc, hmode, hgen, hcurrent, hsince⟩ := hheld
  refine ⟨⟨c, hc, hmode, hgen⟩, ⟨⟨c, hc, Nat.le_of_eq hgen⟩, ?_⟩, hsince⟩
  rw [hlife]
  obtain ⟨g, hg, hstate⟩ := Option.map_eq_some_iff.mp hcurrent
  show stamp (some record.generation) ≤ stamp i.barrier.generation
  rw [hgen, hg, ← hstate]

/-- What a step that lands a record does. -/
theorem frozenLands_moves (hmove : Moves etag s .frozenLands s') : s'.frozen = s.frozen ∨ ∃ i record, s.life = .alive i ∧
    s'.frozen = some record ∧ ((∃ request, i.turn = some (.freezing request record false)) ∨
      i.turn = some (.marking record false)) := by
  cases hmove with
  | idle => exact .inl rfl
  | aside => exact .inl rfl
  | frozenLands i request record hlife hturn => exact .inr ⟨i, record, hlife, rfl, .inl ⟨request, hturn⟩⟩
  | markLands i record hlife hturn => exact .inr ⟨i, record, hlife, rfl, .inr hturn⟩

theorem step_stretches (h : Ordered etag s) (hs : Stretches s) (hmove : Moves etag s event s')
    (hlate : ∀ index record, event = .late index → s.late[index]? ≠ some (.frozen record)) : Stretches s' := by
  have hsub : s.history ⊆ s'.history := (step_grows hmove).1.subset
  refine ⟨?_, ?_⟩
  · intro record hrecord
    have hkept : ∀ r : FrozenRecord, ((∃ c ∈ s.history, c.mode ≠ .open ∧ r.generation = c.generation) ∧ Reached s r.generation) →
        (∃ c ∈ s'.history, c.mode ≠ .open ∧ r.generation = c.generation) ∧ Reached s' r.generation := by
      intro r ⟨⟨c, hc, hrest⟩, hreached⟩
      exact ⟨⟨c, hsub hc, hrest⟩, step_reached h hmove hreached⟩
    apply hkept
    by_cases hevent : event = .frozenLands
    · subst hevent
      rcases frozenLands_moves hmove with hsame | ⟨i, landed, hlife, hfrozen, hturn⟩
      · exact hs.record record (hsame ▸ hrecord)
      · rw [hfrozen] at hrecord
        cases hrecord
        obtain ⟨hheld, hreached, _⟩ := record_landed h hlife (hs.alive i hlife) hturn
        exact ⟨hheld, hreached⟩
    · have hsame := frozen_kept hmove hlate hevent
      exact hs.record record (hsame ▸ hrecord)
  · intro i' hlife'
    rcases step_alive hmove hlife' with ⟨i, hlife⟩ | ⟨found, frozen, hloading, _, rfl⟩
    · exact step_instance h hmove hlife hlife' (hs.alive i hlife)
    · have hok := h.life
      rw [hloading] at hok
      refine ⟨load_memory ?_, fun _ hs => nomatch hs⟩
      intro f hf
      subst hf
      rcases hok.1 with ⟨hnone, _⟩ | ⟨c, n, hc, _, hmem⟩
      · cases hnone
      · cases hc
        exact hsub hmem

/-! ## A stretch that is over -/

/-- No instance, alive or to come, is in the stretch that started at `since`. -/
structure Dead (s : System V) (since : Nat) : Prop where
  reached : Reached s (since + 1)
  record : ∀ record, s.frozen = some record → record.since = since → ∃ c ∈ s.history, record.generation < c.generation
  loading : ∀ found, s.life = .loading found → ∀ record, s.frozen = some record → record.since = since →
    ∃ f, found = some f ∧ record.generation < f.state.generation
  alive : ∀ i, s.life = .alive i → i.barrier.frozenSince ≠ some since

/-- A cold start never resumes a stretch that is over. -/
theorem frozenOnLoad_ne {state : OpsPublishedState} (hgen : since + 1 ≤ state.generation)
    (hrecord : ∀ record, frozen = some record → record.since = since → record.generation < state.generation) :
    frozenOnLoad state frozen ≠ some since := by
  intro h
  unfold frozenOnLoad at h
  split at h
  · cases h
  · split at h
    · rename_i record
      split at h
      · rename_i heq
        have hlt := hrecord record rfl (Option.some.inj h)
        omega
      · have heq := Option.some.inj h
        omega
    · have heq := Option.some.inj h
      omega

/-- What a step makes of memory's stretch: it stays, ends, or starts at memory's generation. -/
theorem step_since (hmove : Moves etag s event s') (hlife : s.life = .alive i) (hlife' : s'.life = .alive i') :
    i'.barrier.frozenSince = i.barrier.frozenSince ∨ i'.barrier.frozenSince = none ∨
    i'.barrier.frozenSince = i'.barrier.generation := by
  cases hmove with
  | idle | lateState | lateFrozen =>
    have hsame : s.life = .alive i' := hlife'
    rw [hlife] at hsame
    cases hsame
    exact .inl rfl
  | load habsent =>
    rw [habsent] at hlife
    cases hlife
  | loaded found frozen hloading _ =>
    rw [hloading] at hlife
    cases hlife
  | notLoaded | evicted => cases hlife'
  | aside _ j j' hj haside =>
    rw [hlife] at hj
    cases hj
    cases hlife'
    exact .inl haside.same.frozenSince
  | publish j request frozen b hj hturn hup =>
    rw [hlife] at hj
    cases hj
    cases hlife'
    obtain ⟨_, hb⟩ := takeUp_publish hup
    left
    split at hb <;> subst hb <;> rfl
  | opened j request attempt version hj hturn hopen =>
    rw [hlife] at hj
    cases hj
    cases hlife'
    exact .inr (.inl rfl)
  | restricted j request attempt version hj hturn hmode =>
    rw [hlife] at hj
    cases hj
    cases hlife'
    cases hold : i.barrier.frozenSince with
    | none => exact .inr (.inr rfl)
    | some old => exact .inl rfl
  | adopted j request attempt found hj hturn hrefused =>
    rw [hlife] at hj
    cases hj
    cases hlife'
    right
    show (if found.state.mode = .open then none else some found.state.generation) = none ∨
      (if found.state.mode = .open then none else some found.state.generation) = some found.state.generation
    split
    · exact .inl rfl
    · exact .inr rfl
  | marks j b record hj hturn hwrite =>
    rw [hlife] at hj
    cases hj
    cases hlife'
    obtain ⟨generation, _, hgen, rfl, _⟩ := restrictedWrite_some hwrite
    exact .inr (.inr hgen.symm)
  | refused j | again j | putLands j | conflict j | putLost j | answerLost j | readLands j | retried j | exhausted j | readLost j
  | frozenLands j | markLands j | frozenAnswers j | frozenFails j | marked j | markFails j | drained j | work j | cleared j
  | done j =>
    have hj : s.life = .alive j := by assumption
    rw [hlife] at hj
    cases hj
    cases hlife'
    exact .inl rfl

theorem step_dead (h : Ordered etag s) (hs : Stretches s) (hdead : Dead s since) (hmove : Moves etag s event s')
    (hlate : ∀ index record, event = .late index → s.late[index]? ≠ some (.frozen record)) : Dead s' since := by
  have hsub : s.history ⊆ s'.history := (step_grows hmove).1.subset
  have hreached : Reached s' (since + 1) := step_reached h hmove hdead.reached
  -- the record is the one before, or memory's own, whose stretch is another
  have hrecord : ∀ record, s'.frozen = some record → record.since = since → s.frozen = some record := by
    intro record hrecord hsince
    by_cases hevent : event = .frozenLands
    · subst hevent
      rcases frozenLands_moves hmove with hsame | ⟨i, landed, hlife, hfrozen, hturn⟩
      · exact hsame ▸ hrecord
      · rw [hfrozen] at hrecord
        cases hrecord
        obtain ⟨_, _, hmemory⟩ := record_landed h hlife (hs.alive i hlife) hturn
        exact absurd (hsince ▸ hmemory) (hdead.alive i hlife)
    · exact frozen_kept hmove hlate hevent ▸ hrecord
  refine ⟨hreached, ?_, ?_, ?_⟩
  · intro record hfrozen hsince
    obtain ⟨c, hc, hlt⟩ := hdead.record record (hrecord record hfrozen hsince) hsince
    exact ⟨c, hsub hc, hlt⟩
  · intro found hfound record hfrozen hsince
    have hold := hrecord record hfrozen hsince
    cases hmove with
    | load habsent =>
      cases hfound
      obtain ⟨c, hc, hlt⟩ := hdead.record record hold hsince
      obtain ⟨last, hlast, hfollows⟩ := follows_holds etag h.history hc
      obtain ⟨f, hf, rfl⟩ := Option.map_eq_some_iff.mp hlast
      exact ⟨f, hf, Nat.lt_of_lt_of_le hlt hfollows.generation_le⟩
    | idle | lateState | lateFrozen => exact hdead.loading found hfound record hold hsince
    | _ => cases hfound
  · intro i' hlife'
    rcases step_alive hmove hlife' with ⟨i, hlife⟩ | ⟨found, frozen, hloading, hfrozen, rfl⟩
    · intro hsince
      rcases step_since hmove hlife hlife' with hsame | hnone | hstart
      · exact hdead.alive i hlife (hsame ▸ hsince)
      · rw [hnone] at hsince
        cases hsince
      · have hle : LifeReached (since + 1) s'.life := hreached.2
        rw [hlife'] at hle
        have hle : stamp (some (since + 1)) ≤ stamp i'.barrier.generation := hle
        rw [← hstart, hsince, stamp_some_le] at hle
        omega
    · have hlife := hdead.reached.2
      rw [hloading] at hlife
      obtain ⟨f, rfl, hgen⟩ := hlife
      show frozenOnLoad f.state frozen ≠ some since
      rcases hfrozen with rfl | hopen
      · apply frozenOnLoad_ne hgen
        intro record hrec hsince
        obtain ⟨f', hf', hlt⟩ := hdead.loading _ hloading record hrec hsince
        cases hf'
        exact hlt
      · have hmode : f.state.mode = .open := by simpa using hopen
        simp [frozenOnLoad, hmode]

/-! ## Dumps under way -/

variable {Rows H : Type} {digest : DumpState → H} {o o' : Object Rows H V}

/-- Nothing but migrations took effect since the dump began. -/
def Untouched (o : Object Rows H V) (d : Dump Rows H) : Prop :=
  d.seen.ledger ⊆ o.db.ledger ∧ (o.db.ledger = d.seen.ledger → o.db.rows = d.seen.rows ∧ o.writes = d.writes)

variable (digest) in
structure DumpOk (o : Object Rows H V) (d : Dump Rows H) : Prop where
  state : d.begun.state = dumpState digest d.seen d.since
  unmarked : d.seen.importing = false
  begunAt : ∃ c ∈ o.system.history, c.mode ≠ .open ∧ d.since ≤ c.generation ∧ Reached o.system c.generation
  fate : (o.armed = none ∧ Untouched o d) ∨ Dead o.system d.since

variable (etag digest) in
structure Inv (o : Object Rows H V) : Prop where
  ordered : Ordered etag o.system
  stretches : Stretches o.system
  dumps : ∀ dump d, o.dumps dump = some d → d.completed = false → DumpOk digest o d

omit [DecidableEq V] in
/-- A state R2 held that writes nothing is at another generation than one it held open. -/
theorem open_elsewhere {c : OpsPublishedState} {g : Nat} (hord : history.Pairwise Follows) (hc : c ∈ history)
    (hmode : c.mode ≠ .open) (hopen : ⟨g, .open⟩ ∈ history) : c.generation ≠ g := by
  intro heq
  rcases held_comparable hord hc hopen with hfollows | hfollows
  · exact hmode (by rw [hfollows.eq_of_generation_eq heq])
  · exact hmode (by rw [← hfollows.eq_of_generation_eq heq.symm])

variable {d : Dump Rows H} {check : Object Rows H V → Event Rows → Bool}
variable {step : Object Rows H V → Event Rows → Object Rows H V}

omit [DecidableEq V] in
/-- An ordinary write is at a later generation than any stretch a dump has begun in. -/
theorem dead_of_write {e : BarrierEvent} (hinv : Inv etag digest o) (hd : DumpOk digest o d) (hlife : o.system.life = .alive i)
    (hwritable : i.barrier.writable e.generation e.mode = true) : Dead o.system d.since := by
  obtain ⟨_, hmode, _⟩ : e.mode = .open ∧ i.barrier.mode = .open ∧ i.barrier.generation = e.generation :=
    of_decide_eq_true hwritable
  have hi := hinv.stretches.alive i hlife
  obtain ⟨c, hc, hcmode, hsince, hreached⟩ := hd.begunAt
  have hle := hreached.2
  rw [hlife] at hle
  have hle : stamp (some c.generation) ≤ stamp i.barrier.generation := hle
  cases hgen : i.barrier.generation with
  | none =>
    rw [hgen] at hle
    simp [stamp] at hle
  | some g =>
    rw [hgen, stamp_some_le] at hle
    have hheld : ⟨g, .open⟩ ∈ o.system.history := hi.memory.openHeld hmode g hgen
    have hne : c.generation ≠ g := open_elsewhere hinv.ordered.history hc hcmode hheld
    refine ⟨⟨⟨⟨g, .open⟩, hheld, ?_⟩, ?_⟩, ?_, ?_, ?_⟩
    · show d.since + 1 ≤ g
      omega
    · rw [hlife]
      show stamp (some (d.since + 1)) ≤ stamp i.barrier.generation
      rw [hgen, stamp_some_le]
      omega
    · intro record hrecord _
      obtain ⟨⟨c', hc', hmode', hgen'⟩, hreached'⟩ := hinv.stretches.record record hrecord
      have hne' : c'.generation ≠ g := open_elsewhere hinv.ordered.history hc' hmode' hheld
      have hle' := hreached'.2
      rw [hlife] at hle'
      have hle' : stamp (some record.generation) ≤ stamp i.barrier.generation := hle'
      rw [hgen, stamp_some_le] at hle'
      refine ⟨⟨g, .open⟩, hheld, ?_⟩
      show record.generation < g
      omega
    · intro found hloading
      rw [hlife] at hloading
      cases hloading
    · intro i' hlife'
      rw [hlife] at hlife'
      cases hlife'
      rw [hi.memory.openNone hmode]
      intro hno
      cases hno

variable (etag) in
/-- No dump under way began at the generation the step writes at, nor at the stretch a cold start
    would resume from R2 as it is now. -/
def Spares (o : Object Rows H V) (i : Instance V) : Prop := ∀ dump d, o.dumps dump = some d → d.completed = false →
  i.barrier.generation ≠ some d.since ∧ ∀ found, holds etag o.system.history = some found →
    frozenOnLoad found.state o.system.frozen ≠ some d.since

omit [DecidableEq V] in
theorem dead_of_restricted (hinv : Inv etag digest o) (hdump : o.dumps dump = some d) (hunder : d.completed = false)
    (hrestricted : Restricted o i) (hspares : Spares etag o i) : Dead o.system d.since := by
  have hd := hinv.dumps dump d hdump hunder
  obtain ⟨hlife, _, hturn, hmode⟩ := hrestricted
  have hi := hinv.stretches.alive i hlife
  obtain ⟨⟨c, hc, hcurrent⟩, hcleared⟩ := hi.turn _ hturn
  obtain ⟨g, hgen, hstate⟩ := Option.map_eq_some_iff.mp hcurrent
  have hsinceGen : i.barrier.frozenSince = some g := by
    rw [hcleared rfl (by rw [hmode]; decide), hgen]
  obtain ⟨hne, hresumed⟩ := hspares dump d hdump hunder
  obtain ⟨c₀, hc₀, _, hsince, hreached⟩ := hd.begunAt
  have hle := hreached.2
  rw [hlife] at hle
  have hle : stamp (some c₀.generation) ≤ stamp i.barrier.generation := hle
  rw [hgen, stamp_some_le] at hle
  have hlt : d.since < g := by
    have hne : d.since ≠ g := fun heq => hne (by rw [hgen, heq])
    omega
  have hcgen : c.generation = g := by rw [← hstate]
  refine ⟨⟨⟨c, hc, by omega⟩, ?_⟩, ?_, ?_, ?_⟩
  · rw [hlife]
    show stamp (some (d.since + 1)) ≤ stamp i.barrier.generation
    rw [hgen, stamp_some_le]
    omega
  · intro record hrecord hsame
    obtain ⟨_, hreached'⟩ := hinv.stretches.record record hrecord
    have hle' := hreached'.2
    rw [hlife] at hle'
    have hle' : stamp (some record.generation) ≤ stamp i.barrier.generation := hle'
    rw [hgen, stamp_some_le] at hle'
    obtain ⟨last, hlast, hfollows⟩ := follows_holds etag hinv.ordered.history hc
    obtain ⟨found, hfound, rfl⟩ := Option.map_eq_some_iff.mp hlast
    have hmem : found.state ∈ o.system.history := by
      obtain ⟨state, hstate', hfound'⟩ := Option.map_eq_some_iff.mp hfound
      rw [← hfound']
      exact List.mem_of_getLast? hstate'
    by_cases hlater : g < found.state.generation
    · exact ⟨found.state, hmem, by omega⟩
    · have hgenLast : c.generation = found.state.generation := by
        have := hfollows.generation_le
        omega
      have hlastState : c = found.state := hfollows.eq_of_generation_eq hgenLast
      by_cases hrecordGen : record.generation = g
      · -- R2 would resume the dump's stretch, which the step spares
        exfalso
        apply hresumed found hfound
        have hclosed : found.state.mode ≠ .open := by
          rw [← hlastState, ← hstate, hmode]
          exact fun hno => nomatch hno
        unfold frozenOnLoad
        rw [if_neg hclosed, hrecord]
        dsimp only
        rw [if_pos ⟨by omega, by omega⟩, hsame]
      · exact ⟨c, hc, by omega⟩
  · intro found hloading
    rw [hlife] at hloading
    cases hloading
  · intro i' hlife'
    rw [hlife] at hlife'
    cases hlife'
    rw [hsinceGen]
    intro heq
    have heq := Option.some.inj heq
    omega

/-! ## One step of the object -/

omit [DecidableEq V] in
theorem DumpOk.system {system : System V} {d : Dump Rows H} {db : Database Rows} {armed : Option (Database Rows)}
    {dumps : String → Option (Dump Rows H)} (hd : DumpOk digest o d)
    (hreached : ∀ g, Reached o.system g → Reached system g) (hsub : o.system.history ⊆ system.history)
    (hdead : Dead o.system d.since → Dead system d.since) (hdb : o.armed = none → armed = none ∧ db = o.db) :
    DumpOk digest ⟨system, db, armed, dumps, o.writes⟩ d := by
  obtain ⟨c, hc, hmode, hsince, hat⟩ := hd.begunAt
  refine ⟨hd.state, hd.unmarked, ⟨c, hsub hc, hmode, hsince, hreached _ hat⟩, ?_⟩
  rcases hd.fate with ⟨harmed, huntouched⟩ | hover
  · obtain ⟨harmed', rfl⟩ := hdb harmed
    exact .inl ⟨harmed', huntouched⟩
  · exact .inr (hdead hover)

variable {db : Database Rows}

omit [DecidableEq V] in
/-- A write after which every dump under way is over. -/
theorem inv_of_dead {armed : Option (Database Rows)} {writes : Nat} (hinv : Inv etag digest o)
    (hdead : ∀ dump d, o.dumps dump = some d → d.completed = false → Dead o.system d.since) :
    Inv etag digest { o with db := db, armed := armed, writes := writes } := by
  refine ⟨hinv.ordered, hinv.stretches, ?_⟩
  intro dump d hdump hunder
  have hd := hinv.dumps dump d hdump hunder
  exact ⟨hd.state, hd.unmarked, hd.begunAt, .inr (hdead dump d hdump hunder)⟩

omit [DecidableEq V] in
theorem Untouched.migrates (h : Untouched o d) (hmigrates : Migrates o.db db) :
    Untouched { o with db := db, writes := if db.ledger = o.db.ledger then o.writes else o.writes + 1 } d := by
  refine ⟨h.1.trans hmigrates.1, ?_⟩
  intro hledger
  have hledger : db.ledger = d.seen.ledger := hledger
  have hbefore : o.db.ledger = d.seen.ledger := subset_antisymm (hledger ▸ hmigrates.1) h.1
  have hsame : db.ledger = o.db.ledger := hledger.trans hbefore.symm
  obtain ⟨hrows, hwrites⟩ := h.2 hbefore
  refine ⟨(hmigrates.2 hsame).trans hrows, ?_⟩
  show (if db.ledger = o.db.ledger then o.writes else o.writes + 1) = d.writes
  rw [if_pos hsame, hwrites]

omit [DecidableEq V] in
theorem inv_migrate (hinv : Inv etag digest o) (hmigrates : Migrates o.db db) :
    Inv etag digest { o with db := db, writes := if db.ledger = o.db.ledger then o.writes else o.writes + 1 } := by
  refine ⟨hinv.ordered, hinv.stretches, ?_⟩
  intro dump d hdump hunder
  have hd := hinv.dumps dump d hdump hunder
  refine ⟨hd.state, hd.unmarked, hd.begunAt, ?_⟩
  rcases hd.fate with ⟨harmed, huntouched⟩ | hdead
  · exact .inl ⟨harmed, huntouched.migrates hmigrates⟩
  · exact .inr hdead

omit [DecidableEq V] in
theorem stretch_some (h : stretch o = some since) :
    ∃ i, o.system.life = .alive i ∧ i.barrier.mode ≠ .open ∧ o.db.importing = false ∧ i.barrier.frozenSince = some since := by
  unfold stretch at h
  split at h
  · rename_i i hlife
    split at h
    · cases h
    · rename_i hno
      rw [not_or, Bool.not_eq_true] at hno
      exact ⟨i, hlife, hno.1, hno.2, h⟩
  · cases h

omit [DecidableEq V] in
/-- The dump a first `begin` records is bound to memory's stretch. -/
theorem begun_ok (hinv : Inv etag digest o) (hworking : Working o i) (hstretch : stretch o = some since) :
    DumpOk digest o ⟨⟨dumpState digest o.db since, uploadId, bookmark⟩, false, since, o.db, o.writes⟩ := by
  obtain ⟨hlife, harmed, cleared, hturn⟩ := hworking
  obtain ⟨i', hlife', hmode, hmarker, hsince⟩ := stretch_some hstretch
  rw [hlife] at hlife'
  cases hlife'
  have hi := hinv.stretches.alive i hlife
  obtain ⟨⟨c, hc, hcurrent⟩, _⟩ := hi.turn _ hturn
  obtain ⟨g, hgen, hstate⟩ := Option.map_eq_some_iff.mp hcurrent
  have hle := hi.memory.sinceLe since hsince
  rw [hgen, stamp_some_le] at hle
  have hcgen : c.generation = g := by rw [← hstate]
  refine ⟨rfl, hmarker, ⟨c, hc, ?_, ?_, ⟨c, hc, Nat.le_refl _⟩, ?_⟩, .inl ⟨harmed, Finset.Subset.refl _, fun _ => ⟨rfl, rfl⟩⟩⟩
  · rw [← hstate]
    exact hmode
  · show since ≤ c.generation
    omega
  · rw [hlife]
    show stamp (some c.generation) ≤ stamp i.barrier.generation
    rw [hgen, hcgen]

omit [DecidableEq V] in
theorem inv_begin {recorded : Bool} (hinv : Inv etag digest o) (hworking : ∃ i, Working o i) :
    Inv etag digest (begin digest o dump uploadId bookmark recorded) := by
  obtain ⟨i, hworking⟩ := hworking
  unfold begin
  split
  · rename_i since hstretch hnone
    split
    · refine ⟨hinv.ordered, hinv.stretches, ?_⟩
      intro other d hdump hunder
      by_cases hsame : other = dump
      · subst hsame
        dsimp only at hdump
        rw [Function.update_self] at hdump
        cases hdump
        have hok : DumpOk digest o ⟨⟨_, uploadId, bookmark⟩, _, _, _, _⟩ := begun_ok hinv hworking hstretch
        exact ⟨hok.state, hok.unmarked, hok.begunAt, hok.fate⟩
      · dsimp only at hdump
        rw [Function.update_of_ne hsame] at hdump
        have hok := hinv.dumps other d hdump hunder
        exact ⟨hok.state, hok.unmarked, hok.begunAt, hok.fate⟩
    · exact hinv
  · exact hinv

variable [DecidableEq H]

theorem inv_maintenance (hetag : Names etag) (hinv : Inv etag digest o) (hheeds : Heeds o.system event)
    (henabled : Enabled o (.maintenance event)) : Inv etag digest (next digest etag o (.maintenance event)) := by
  have hmove : Moves etag o.system event (Maintenance.next etag o.system event) := next_moves _ _
  have hlate : ∀ index record, event = .late index → o.system.late[index]? ≠ some (.frozen record) := by
    intro index record heq
    subst heq
    exact henabled record
  have hordered := step_ordered hetag hinv.ordered hheeds hmove
  have hstretches := step_stretches hinv.ordered hinv.stretches hmove hlate
  have hsub := (step_grows hmove).1.subset
  have hdumps : ∀ dump d, o.dumps dump = some d → d.completed = false → ∀ db armed dumps,
      (o.armed = none → armed = none ∧ db = o.db) →
      DumpOk digest ⟨Maintenance.next etag o.system event, db, armed, dumps, o.writes⟩ d := by
    intro dump d hdump hunder db armed dumps hdb
    exact (hinv.dumps dump d hdump hunder).system (fun g => step_reached hinv.ordered hmove) hsub
      (fun hdead => step_dead hinv.ordered hinv.stretches hdead hmove hlate) hdb
  by_cases hload : event = .load
  · subst hload
    have hstart : (start o).dumps = o.dumps ∧ (start o).writes = o.writes ∧
        (o.armed = none → (start o).armed = none ∧ (start o).db = o.db) := by
      unfold start
      split
      · refine ⟨rfl, rfl, fun harmed => ⟨rfl, ?_⟩⟩
        show o.armed.getD o.db = o.db
        rw [harmed]
        rfl
      · exact ⟨rfl, rfl, fun harmed => ⟨harmed, rfl⟩⟩
    refine ⟨hordered, hstretches, ?_⟩
    intro dump d hdump hunder
    have hdump : (start o).dumps dump = some d := hdump
    rw [hstart.1] at hdump
    have hok := hdumps dump d hdump hunder (start o).db (start o).armed (start o).dumps hstart.2.2
    rw [← hstart.2.1] at hok
    exact hok
  · have hnext : next digest etag o (.maintenance event) = { o with system := Maintenance.next etag o.system event } := by
      cases event <;> first | rfl | exact absurd rfl hload
    rw [hnext]
    exact ⟨hordered, hstretches, fun dump d hdump hunder => hdumps dump d hdump hunder _ _ _ (fun harmed => ⟨harmed, rfl⟩)⟩

omit [DecidableEq V] in
theorem inv_complete (hinv : Inv etag digest o) : Inv etag digest (complete digest o dump uploadId bookmark) := by
  unfold complete
  split
  · refine ⟨hinv.ordered, hinv.stretches, ?_⟩
    intro other d hdump hunder
    by_cases hsame : other = dump
    · subst hsame
      dsimp only at hdump
      rw [Function.update_self] at hdump
      obtain ⟨d', _, rfl⟩ := Option.map_eq_some_iff.mp hdump
      cases hunder
    · dsimp only at hdump
      rw [Function.update_of_ne hsame] at hdump
      have hok := hinv.dumps other d hdump hunder
      exact ⟨hok.state, hok.unmarked, hok.begunAt, hok.fate⟩
  · exact hinv

/-! ## One state -/

variable (etag) in
/-- What a step must heed: transitions as the fence needs them, and no import write and no rewind in
    a stretch a dump under way began in. -/
def Careful (o : Object Rows H V) : Event Rows → Prop
  | .maintenance event => Heeds o.system event
  | .importWrite _ => ∀ i, o.system.life = .alive i → Spares etag o i
  | .arm _ => ∀ i, o.system.life = .alive i → Spares etag o i
  | _ => True

variable (etag digest) in
def CarefulStep (o : Object Rows H V) (event : Event Rows) (o' : Object Rows H V) : Prop :=
  Careful etag o event ∧ Step digest etag o event o'

theorem inv_step {event : Event Rows} (hetag : Names etag) (hinv : Inv etag digest o)
    (hstep : CarefulStep etag digest o event o') :
    Inv etag digest o' := by
  obtain ⟨hcareful, henabled, rfl⟩ := hstep
  cases event with
  | maintenance event => exact inv_maintenance hetag hinv hcareful henabled
  | write event db =>
    obtain ⟨i, hlife, _, hwritable⟩ := henabled
    exact inv_of_dead hinv fun dump d hdump hunder => dead_of_write hinv (hinv.dumps dump d hdump hunder) hlife hwritable
  | migrate db => exact inv_migrate hinv henabled.1
  | importWrite db =>
    obtain ⟨i, hrestricted⟩ := henabled
    exact inv_of_dead hinv fun dump d hdump hunder =>
      dead_of_restricted hinv hdump hunder hrestricted (hcareful i hrestricted.1)
  | arm target =>
    obtain ⟨i, hrestricted⟩ := henabled
    exact inv_of_dead hinv fun dump d hdump hunder =>
      dead_of_restricted hinv hdump hunder hrestricted (hcareful i hrestricted.1)
  | begin dump uploadId bookmark recorded => exact inv_begin hinv henabled
  | part dump uploadId => exact hinv
  | complete dump uploadId bookmark => exact inv_complete hinv

omit [DecidableEq V] [DecidableEq H] in
theorem inv_initial : Inv etag digest (initial db : Object Rows H V) := by
  refine ⟨initial_invariant.ordered, ⟨?_, ?_⟩, ?_⟩
  · intro record hrecord
    cases hrecord
  · intro i hlife
    cases hlife
  · intro dump d hdump
    cases hdump

omit [DecidableEq V] in
/-- An accepted step of a dump under way finds the database its `begin` saw. -/
theorem accepted_sees {uploadId bookmark : Option String} (hinv : Inv etag digest o) (hdump : o.dumps dump = some d)
    (hunder : d.completed = false)
    (happart : ∀ since, stretch o = some since → dumpState digest d.seen d.since = dumpState digest o.db since →
      stateOf d.seen d.since = stateOf o.db since) (haccepts : accepts digest o dump uploadId bookmark = true) :
    o.db = d.seen ∧ o.writes = d.writes := by
  have hd := hinv.dumps dump d hdump hunder
  unfold accepts at haccepts
  rw [hdump] at haccepts
  split at haccepts
  · rename_i since d' hstretch hsome
    cases hsome
    rw [Bool.and_eq_true, Bool.and_eq_true, decide_eq_true_eq] at haccepts
    have hstate : dumpState digest d.seen d.since = dumpState digest o.db since := hd.state.symm.trans haccepts.1.1
    have hseen := happart since hstretch hstate
    simp only [stateOf, DumpState.mk.injEq] at hseen
    obtain ⟨hsince, hddl, hledger, hbundles⟩ := hseen
    obtain ⟨i, hlife, _, hmarker, hfrozen⟩ := stretch_some hstretch
    rcases hd.fate with ⟨_, huntouched⟩ | hdead
    · obtain ⟨hrows, hwrites⟩ := huntouched.2 hledger.symm
      refine ⟨?_, hwrites⟩
      have hunmarked := hd.unmarked
      cases hdb : o.db
      cases hold : d.seen
      rw [hdb] at hrows hledger hddl hbundles hmarker
      rw [hold] at hrows hledger hddl hbundles hunmarked
      dsimp only at hrows hledger hddl hbundles hmarker hunmarked
      rw [hrows, hddl, hledger, hbundles, hmarker, hunmarked]
    · exact absurd (hsince ▸ hfrozen) (hdead.alive i hlife)
  · cases haccepts

omit [DecidableEq V] [DecidableEq H] in
theorem start_dumps (o : Object Rows H V) : (start o).dumps = o.dumps := by
  unfold start
  split <;> rfl

theorem maintenance_dumps (event : Maintenance.Event) : (next digest etag o (.maintenance event)).dumps = o.dumps := by
  by_cases hload : event = .load
  · subst hload
    exact start_dumps o
  · cases event <;> first | rfl | exact absurd rfl hload

/-- A dump keeps what its first `begin` recorded. -/
theorem step_keeps_dump {event : Event Rows} (hdump : o.dumps dump = some d) :
    ∃ d', (next digest etag o event).dumps dump = some d' ∧ d'.seen = d.seen ∧ d'.writes = d.writes ∧ d'.since = d.since := by
  cases event with
  | maintenance event =>
    rw [maintenance_dumps]
    exact ⟨d, hdump, rfl, rfl, rfl⟩
  | begin other uploadId bookmark recorded =>
    refine ⟨d, ?_, rfl, rfl, rfl⟩
    show (begin digest o other uploadId bookmark recorded).dumps dump = some d
    unfold begin
    split
    · rename_i hnone
      split
      · have hne : dump ≠ other := by
          intro heq
          rw [← heq, hdump] at hnone
          cases hnone
        dsimp only
        rw [Function.update_of_ne hne, hdump]
      · exact hdump
    · exact hdump
  | complete other uploadId bookmark =>
    show ∃ d', (complete digest o other uploadId bookmark).dumps dump = some d' ∧ _
    unfold complete
    split
    · by_cases hsame : dump = other
      · subst hsame
        dsimp only
        rw [Function.update_self, hdump]
        exact ⟨_, rfl, rfl, rfl, rfl⟩
      · dsimp only
        rw [Function.update_of_ne hsame]
        exact ⟨d, hdump, rfl, rfl, rfl⟩
    · exact ⟨d, hdump, rfl, rfl, rfl⟩
  | _ => exact ⟨d, hdump, rfl, rfl, rfl⟩

theorem run_keeps_dump {evs : List (Event Rows)} (h : Run (CarefulStep etag digest) o evs o') (hdump : o.dumps dump = some d) :
    ∃ d', o'.dumps dump = some d' ∧ d'.seen = d.seen ∧ d'.writes = d.writes ∧ d'.since = d.since := by
  induction h with
  | nil => exact ⟨d, hdump, rfl, rfl, rfl⟩
  | snoc _ hs ih =>
    obtain ⟨d₁, hd₁, hseen, hwrites, hsince⟩ := ih
    obtain ⟨_, _, rfl⟩ := hs
    obtain ⟨d₂, hd₂, hseen', hwrites', hsince'⟩ := step_keeps_dump hd₁
    exact ⟨d₂, hd₂, hseen'.trans hseen, hwrites'.trans hwrites, hsince'.trans hsince⟩

variable (digest) in
/-- The digest of what the dump step of `o'` reads collides with none of what that of `o` reads. -/
def TellsApart (o o' : Object Rows H V) : Prop :=
  ∀ since since', stretch o = some since → stretch o' = some since' →
    dumpState digest o.db since = dumpState digest o'.db since' →
    stateOf o.db since = stateOf o'.db since'

variable (digest) in
/-- Every step a dump has accepted, up to its first `complete`, finds the database its first `begin`
    recorded, and no write took effect between, unless the digests of the two collide. -/
def ReadsOneState (step : Object Rows H V → Event Rows → Object Rows H V → Prop) : Prop :=
  ∀ db evs evs' o o₁ o₂ dump uploadId bookmark uploadId' bookmark', Run step (initial db) evs o → o.dumps dump = none →
    step o (.begin dump uploadId bookmark true) o₁ → o₁.dumps dump ≠ none → Run step o₁ evs' o₂ →
    (∀ d, o₂.dumps dump = some d → d.completed = false) → (∃ i, Working o₂ i) → TellsApart digest o o₂ →
    accepts digest o₂ dump uploadId' bookmark' = true → o₂.db = o.db ∧ o₂.writes = o.writes

omit [DecidableEq V] [DecidableEq H] in
theorem begin_records {recorded : Bool} (hnone : o.dumps dump = none)
    (hsome : (begin digest o dump uploadId bookmark recorded).dumps dump ≠ none) :
    ∃ d, (begin digest o dump uploadId bookmark recorded).dumps dump = some d ∧ d.seen = o.db ∧ d.writes = o.writes ∧
      stretch o = some d.since := by
  unfold begin at hsome ⊢
  rw [hnone] at hsome ⊢
  cases hstretch : stretch o with
  | none =>
    rw [hstretch] at hsome
    exact absurd hnone hsome
  | some since =>
    rw [hstretch] at hsome
    dsimp only at hsome ⊢
    by_cases hrecorded : recorded = true
    · rw [if_pos hrecorded]
      dsimp only
      rw [Function.update_self]
      exact ⟨_, rfl, rfl, rfl, rfl⟩
    · rw [if_neg hrecorded] at hsome
      exact absurd hnone hsome

theorem reads_one_state (hetag : Names etag) :
    ReadsOneState digest (CarefulStep etag digest : Object Rows H V → Event Rows → Object Rows H V → Prop) := by
  intro db evs evs' o o₁ o₂ dump uploadId bookmark uploadId' bookmark' hrun hnone hbegin hsome hrun' hunder hworking
    happart haccepts
  have hinv : Inv etag digest o := hrun.invariant inv_initial fun _ _ _ hinv hstep => inv_step hetag hinv hstep
  have hinv₁ : Inv etag digest o₁ := inv_step hetag hinv hbegin
  have hinv₂ : Inv etag digest o₂ := hrun'.invariant hinv₁ fun _ _ _ hinv hstep => inv_step hetag hinv hstep
  obtain ⟨_, _, rfl⟩ := hbegin
  obtain ⟨d, hd, hseen, hwrites, hbegan⟩ := begin_records hnone hsome
  obtain ⟨d', hd', hseen', hwrites', hsince'⟩ := run_keeps_dump hrun' hd
  rw [hseen] at hseen'
  obtain ⟨hdb, hcount⟩ := accepted_sees hinv₂ hd' (hunder d' hd')
    (fun since hstretch => by rw [hseen', hsince']; exact happart d.since since hbegan hstretch) haccepts
  exact ⟨hdb.trans hseen', hcount.trans (hwrites'.trans hwrites)⟩

/-! ## A rewind inside a stretch, and a dump across a cold start -/

/-- Whether an event without an ordinary write, a migration or an import can happen. -/
def possible (o : Object Rows H V) : Event Rows → Bool
  | .maintenance (.late _) => false
  | .maintenance .done => o.armed.isNone
  | .maintenance _ => true
  | .arm _ => match o.system.life with
    | .alive i => o.armed.isNone && decide (i.turn = some (.working true)) && decide (i.barrier.mode = .inspect)
    | _ => false
  | .begin _ _ _ _ | .part _ _ | .complete _ _ _ => match o.system.life with
    | .alive i => o.armed.isNone && (decide (i.turn = some (.working false)) || decide (i.turn = some (.working true)))
    | _ => false
  | _ => false

omit [DecidableEq H] in
theorem working_of (hlife : o.system.life = .alive i)
    (h : (o.armed.isNone && (decide (i.turn = some (.working false)) || decide (i.turn = some (.working true)))) = true) :
    Working o i := by
  rw [Bool.and_eq_true, Bool.or_eq_true, decide_eq_true_eq, decide_eq_true_eq, Option.isNone_iff_eq_none] at h
  refine ⟨hlife, h.1, ?_⟩
  rcases h.2 with hturn | hturn
  · exact ⟨false, hturn⟩
  · exact ⟨true, hturn⟩

omit [DecidableEq H] in
theorem possible_enabled {event : Event Rows} (h : possible o event = true) : Enabled o event := by
  cases event with
  | maintenance event =>
    cases event with
    | late index => cases h
    | done => exact Option.isNone_iff_eq_none.mp h
    | _ => exact trivial
  | arm target =>
    simp only [possible] at h
    split at h
    · rename_i i hlife
      rw [Bool.and_eq_true, Bool.and_eq_true, decide_eq_true_eq, decide_eq_true_eq, Option.isNone_iff_eq_none] at h
      exact ⟨i, hlife, h.1.1, h.1.2, h.2⟩
    · cases h
  | begin dump uploadId bookmark recorded =>
    simp only [possible] at h
    split at h
    · rename_i i hlife
      exact ⟨i, working_of hlife h⟩
    · cases h
  | part dump uploadId =>
    simp only [possible] at h
    split at h
    · rename_i i hlife
      exact ⟨i, working_of hlife h⟩
    · cases h
  | complete dump uploadId bookmark =>
    simp only [possible] at h
    split at h
    · rename_i i hlife
      exact ⟨i, working_of hlife h⟩
    · cases h
  | write event db => cases h
  | migrate db => cases h
  | importWrite db => cases h

/-- Every event of the list passes `check` where it happens. -/
def runs (check : Object Rows H V → Event Rows → Bool) (step : Object Rows H V → Event Rows → Object Rows H V)
    (o : Object Rows H V) : List (Event Rows) → Bool
  | [] => true
  | event :: evs => check o event && runs check step (step o event) evs

omit [DecidableEq V] [DecidableEq H] in
theorem runs_append (o : Object Rows H V) (evs : List (Event Rows)) (event : Event Rows) :
    runs check step o (evs ++ [event]) = (runs check step o evs && check (evs.foldl step o) event) := by
  induction evs generalizing o with
  | nil => simp [runs]
  | cons first evs ih => simp only [List.cons_append, runs, ih, List.foldl_cons, Bool.and_assoc]

omit [DecidableEq V] [DecidableEq H] in
theorem run_of_runs {P : Object Rows H V → Event Rows → Object Rows H V → Prop}
    (hcheck : ∀ o event, check o event = true → P o event (step o event)) (o : Object Rows H V) (evs : List (Event Rows))
    (h : runs check step o evs = true) : Run P o evs (evs.foldl step o) := by
  induction evs using List.reverseRecOn with
  | nil => exact .nil
  | append_singleton evs event ih =>
    rw [runs_append, Bool.and_eq_true] at h
    rw [List.foldl_append]
    exact .snoc (ih h.1) (hcheck _ _ h.2)

/-- The next step of an object whose database is a number, whose digest is what it hashes, and whose
    R2 numbers what it is given. -/
def stepOf : Object Nat DumpState (Nat × OpsPublishedState) → Event Nat → Object Nat DumpState (Nat × OpsPublishedState) :=
  next id numbered

def someRows (rows : Nat) : Database Nat := ⟨rows, [], ∅, [], false⟩

/-- The object is published in `mode` at `generation`, and a data step has its turn. -/
def published (generation : Nat) (mode : OpsMode) : List (Event Nat) :=
  [.maintenance (.takeUp ⟨generation, mode⟩ false), .maintenance .putLands, .maintenance .putAnswers, .maintenance .frozenLands,
   .maintenance .frozenAnswers, .maintenance .drained, .maintenance (.work generation)]

def coldStart : List (Event Nat) := [.maintenance .evict, .maintenance .load, .maintenance .loaded]

def opened (mode : OpsMode) : List (Event Nat) := [.maintenance .load, .maintenance .loaded] ++ published 5 mode

/-- A dump begins at generation 5, in the stretch that starts there. -/
def begun (mode : OpsMode) : Object Nat DumpState (Nat × OpsPublishedState) :=
  stepOf ((opened mode).foldl stepOf (initial (someRows 1))) (.begin "nightly" "upload" "bookmark" true)

def rewound : List (Event Nat) :=
  [.maintenance .done, .maintenance (.work 5), .maintenance .restrictedWrite, .arm (someRows 2)] ++ coldStart ++
    [.maintenance (.work 5)]

/-- A restore's `arm` at generation 5 finds the stretch already starting there and marks nothing; the
    object rewinds, starts again in the same stretch, and the dump goes on over other rows. -/
theorem a_rewind_inside_a_stretch :
    ¬ ReadsOneState id (Step id numbered : Object Nat DumpState (Nat × OpsPublishedState) → Event Nat → _ → Prop) := by
  intro h
  have hpossible : ∀ o event, possible o event = true → Step id numbered o event (stepOf o event) :=
    fun o event hevent => ⟨possible_enabled hevent, rfl⟩
  have hbefore := run_of_runs hpossible (initial (someRows 1)) (opened .inspect) (by decide)
  have hbegin := hpossible ((opened .inspect).foldl stepOf (initial (someRows 1))) (.begin "nightly" "upload" "bookmark" true)
    (by decide)
  have hafter := run_of_runs hpossible (begun .inspect) rewound (by decide)
  have hworking := (hpossible (rewound.foldl stepOf (begun .inspect)) (.part "nightly" "upload") (by decide)).1
  obtain ⟨hdb, _⟩ := h _ _ _ _ _ _ "nightly" "upload" "bookmark" none none hbefore (by decide) hbegin (by decide) hafter
    (by decide) hworking (fun _ _ _ _ h => h) (by decide)
  have hrows : (rewound.foldl stepOf (begun .inspect)).db.rows = 2 := by decide
  rw [hdb] at hrows
  exact absurd hrows (by decide)

/-- A dump begun while the object is closed goes on in `inspect`, after a cold start. -/
def resumed : List (Event Nat) :=
  [.maintenance .done] ++ published 7 .inspect ++ coldStart ++ [.maintenance (.work 7)]

theorem a_dump_across_a_cold_start :
    accepts id (resumed.foldl stepOf (begun .closed)) "nightly" (some "upload") (some "bookmark") = true ∧
      (resumed.foldl stepOf (begun .closed)).db = someRows 1 ∧ (resumed.foldl stepOf (begun .closed)).writes = 0 := by
  have hcareful : ∀ o event,
      (possible o event && (match event with | .maintenance event => heeds o.system event | .arm _ => false | _ => true)) =
      true → CarefulStep numbered id o event (stepOf o event) := by
    intro o event hevent
    rw [Bool.and_eq_true] at hevent
    refine ⟨?_, possible_enabled hevent.1, rfl⟩
    cases event with
    | maintenance event => exact heeds_sound hevent.2
    | arm target => cases hevent.2
    | importWrite db => cases hevent.1
    | _ => exact trivial
  have haccepts : accepts id (resumed.foldl stepOf (begun .closed)) "nightly" (some "upload") (some "bookmark") = true := by
    decide
  have hbefore := run_of_runs hcareful (initial (someRows 1)) (opened .closed) (by decide)
  have hbegin := hcareful ((opened .closed).foldl stepOf (initial (someRows 1))) (.begin "nightly" "upload" "bookmark" true)
    (by decide)
  have hafter := run_of_runs hcareful (begun .closed) resumed (by decide)
  have hworking := (hcareful (resumed.foldl stepOf (begun .closed)) (.part "nightly" "upload") (by decide)).2.1
  have hsame := reads_one_state numbered_names _ _ _ _ _ _ "nightly" "upload" "bookmark" _ _ hbefore
    (by decide) hbegin (by decide) hafter (by decide) hworking (fun _ _ _ _ h => h) haccepts
  exact ⟨haccepts, hsame.1, hsame.2⟩

end Fabrika.App.Consistent
