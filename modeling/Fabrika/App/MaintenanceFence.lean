/-
  Fabrika.App.MaintenanceFence — the barrier's fence over every run (see
  `Fabrika.App.MaintenanceProofs`): R2's order, the acknowledgements, what a tightening transition
  shuts out from the instant it is taken up, and what a drain that ran to its end leaves running.

  `Fences` is what the barrier promises. It holds of every run whose transitions heed what the
  instance last read of R2 (`fences`), and fails without that
  (`a_stored_generation_is_overwritten`).
-/

import Fabrika.App.MaintenanceProofs

namespace Fabrika.App.Maintenance

open Fabrika.Lib Fabrika.AuthCore.OpsState

variable {V : Type} {etag : Nat → OpsPublishedState → V} {history : List OpsPublishedState} {request : OpsPublishedState}

/-! ## Memory's generation only moves on while the instance lives -/

/-- Generations in order, none before all. -/
def stamp (generation : Option Nat) : Nat := generation.elim 0 (· + 1)

variable {b : Barrier V} {i i' : Instance V} {s s' : System V}

theorem stamp_le_of_accepts (h : opsTransitionRefused b.current request = false) :
    stamp b.generation ≤ stamp (some request.generation) := by
  cases hgen : b.generation with
  | none => exact Nat.zero_le _
  | some generation =>
    have hcurrent : b.current = some ⟨generation, b.mode⟩ := by simp [Barrier.current, hgen]
    rw [hcurrent] at h
    have hle : generation ≤ request.generation := (refused_eq_false_iff.mp h).generation_le
    simpa [stamp] using hle

/-- A tightening transition is at a later generation than memory. -/
theorem stamp_lt_of_tightening (h : opsTransitionRefused b.current request = false) (hrank : rank request.mode > rank b.mode) :
    stamp b.generation < stamp (some request.generation) := by
  cases hgen : b.generation with
  | none => exact Nat.succ_pos _
  | some generation =>
    have hcurrent : b.current = some ⟨generation, b.mode⟩ := by simp [Barrier.current, hgen]
    rw [hcurrent] at h
    rcases refused_eq_false_iff.mp h with hlt | heq
    · have hlt : generation < request.generation := hlt
      simpa [stamp] using hlt
    · rw [← heq] at hrank
      exact absurd hrank (Nat.lt_irrefl _)

/-- What refuses a request memory accepts is at no earlier generation than memory. -/
theorem stamp_le_of_adopted {c : OpsPublishedState} (hpass : opsTransitionRefused b.current request = false)
    (hrefused : opsTransitionRefused (some c) request = true) : stamp b.generation ≤ stamp (some c.generation) := by
  have hle : stamp b.generation ≤ stamp (some request.generation) := stamp_le_of_accepts hpass
  have hle' : request.generation ≤ c.generation := by
    rcases refused_iff.mp hrefused with hlt | ⟨heq, _⟩
    · omega
    · omega
  have hstep : stamp (some request.generation) ≤ stamp (some c.generation) := by simpa [stamp] using hle'
  exact Nat.le_trans hle hstep

/-- What an instance becomes in one step: no earlier generation, and nothing captured but what
    memory says now. -/
structure Later (i i' : Instance V) : Prop where
  generation : stamp i.barrier.generation ≤ stamp i'.barrier.generation
  captured : ∀ e ∈ i'.captured, e ∈ i.captured ∨ stamp e.generation ≤ stamp i'.barrier.generation

theorem Later.of_same (hgen : i'.barrier.generation = i.barrier.generation) (hcaptured : i'.captured = i.captured) :
    Later i i' := by
  refine ⟨Nat.le_of_eq (by rw [hgen]), ?_⟩
  intro e he
  exact .inl (hcaptured ▸ he)

theorem Aside.later {i i' : Instance V} (h : Aside i i') : Later i i' := by
  cases h with
  | captured =>
    refine ⟨Nat.le_refl _, ?_⟩
    intro e he
    rcases List.mem_append.mp he with he | he
    · exact .inl he
    · rw [List.mem_singleton.mp he]
      exact .inr (Nat.le_refl _)
  | admitted event kind _ _ _ => exact .of_same rfl rfl
  | tracked admission _ => exact .of_same rfl rfl
  | settled unit _ => exact .of_same rfl rfl
  | released admission _ _ => exact .of_same rfl rfl

/-- A kind the mode in memory forbids is not admitted. -/
theorem admit_forbidden {kind : InvocationKind} {generation : Option Nat} (h : admitted b.mode kind = false) :
    b.admits kind generation = none := by
  unfold Barrier.admits
  rw [if_neg]
  intro ⟨hmode, _⟩
  rw [h] at hmode
  cases hmode

/-- An event captured at another generation is neither admitted nor lets a write commit. -/
theorem fenced_of_generation_ne {e : BarrierEvent} (h : b.generation ≠ e.generation) :
    b.writable e.generation e.mode = false ∧ ∀ kind, b.admits kind e.generation = none := by
  constructor
  · unfold Barrier.writable
    exact decide_eq_false fun hw => h hw.2.2
  · intro kind
    unfold Barrier.admits
    exact if_neg fun hadmit => h hadmit.2

/-! ## A transition taken up stays in memory -/

/-- The request of the transition in the turn. -/
def Stage.transition : Stage V → Option OpsPublishedState
  | .putting request _ | .answering request _ _ | .reading request _ | .found request _ _ => some request
  | .freezing request _ _ | .draining request _ => some request
  | .working _ | .marking _ _ => none

/-- Memory is at `request`, or at a state R2 held that refuses it, for good until the next
    transition is taken up. -/
inductive Holding (request : OpsPublishedState) (history : List OpsPublishedState) (i : Instance V) : Prop
  | taken : i.barrier.current = some request → (∀ stage r, i.turn = some stage → stage.transition = some r → r = request) →
      Holding request history i
  | adopted (c : OpsPublishedState) : c ∈ history → i.barrier.current = some c → opsTransitionRefused (some c) request = true →
      (∀ stage, i.turn = some stage → stage.transition = none) → Holding request history i

theorem Holding.same {history' : List OpsPublishedState} (h : Holding request history i) (hsub : history ⊆ history')
    (hcurrent : i'.barrier.current = i.barrier.current)
    (hturn : ∀ stage, i'.turn = some stage → stage.transition = none ∨ ∃ stage', i.turn = some stage' ∧
      stage'.transition = stage.transition) :
    Holding request history' i' := by
  cases h with
  | taken hmemory hstage =>
    refine .taken (hcurrent.trans hmemory) ?_
    intro stage r hs hr
    rcases hturn stage hs with hnone | ⟨stage', hs', hr'⟩
    · rw [hnone] at hr
      cases hr
    · exact hstage stage' r hs' (hr'.trans hr)
  | adopted c hmem hmemory hrefused hstage =>
    refine .adopted c (hsub hmem) (hcurrent.trans hmemory) hrefused ?_
    intro stage hs
    rcases hturn stage hs with hnone | ⟨stage', hs', hr'⟩
    · exact hnone
    · rw [← hr']
      exact hstage stage' hs'

/-- The transition in the turn is the one that was taken up. -/
theorem Holding.request_eq {stage : Stage V} {r : OpsPublishedState} (h : Holding request history i)
    (hturn : i.turn = some stage) (hr : stage.transition = some r) : r = request ∧ i.barrier.current = some request := by
  cases h with
  | taken hmemory hstage => exact ⟨hstage stage r hturn hr, hmemory⟩
  | adopted c _ _ _ hstage =>
    rw [hstage stage hturn] at hr
    cases hr

/-! ## What the drain counts -/

/-- Every invocation not released and every piece of work not settled is a unit of its own. -/
structure Counted (i : Instance V) : Prop where
  admissions : ∀ a ∈ i.admissions, a.released = false → ⟨a.id, a.kind⟩ ∈ i.barrier.units
  tracked : ∀ unit ∈ i.tracked, unit ∈ i.barrier.units
  apart : ∀ a ∈ i.admissions, ∀ unit ∈ i.tracked, a.id ≠ unit.id
  distinct : ∀ unit ∈ i.tracked, ∀ unit' ∈ i.tracked, unit.id = unit'.id → unit = unit'
  admissionsOld : ∀ a ∈ i.admissions, a.id < i.barrier.fresh
  trackedOld : ∀ unit ∈ i.tracked, unit.id < i.barrier.fresh

theorem Counted.aside (h : Counted i) (haside : Aside i i') : Counted i' := by
  cases haside with
  | captured => exact ⟨h.admissions, h.tracked, h.apart, h.distinct, h.admissionsOld, h.trackedOld⟩
  | admitted event kind _ _ _ =>
    refine ⟨?_, fun unit hu => List.mem_append_left _ (h.tracked unit hu), ?_, h.distinct, ?_,
      fun unit hu => Nat.lt_succ_of_lt (h.trackedOld unit hu)⟩
    · intro a ha hreleased
      rcases List.mem_append.mp ha with ha | ha
      · exact List.mem_append_left _ (h.admissions a ha hreleased)
      · rw [List.mem_singleton.mp ha]
        exact List.mem_append_right _ (List.mem_singleton_self _)
    · intro a ha unit hu
      rcases List.mem_append.mp ha with ha | ha
      · exact h.apart a ha unit hu
      · have hold : unit.id < i.barrier.fresh := h.trackedOld unit hu
        rw [List.mem_singleton.mp ha]
        exact Ne.symm (Nat.ne_of_lt hold)
    · intro a ha
      show a.id < i.barrier.fresh + 1
      rcases List.mem_append.mp ha with ha | ha
      · exact Nat.lt_succ_of_lt (h.admissionsOld a ha)
      · rw [List.mem_singleton.mp ha]
        exact Nat.lt_succ_self _
  | tracked admission hadmission =>
    refine ⟨fun a ha hr => List.mem_append_left _ (h.admissions a ha hr), ?_, ?_, ?_,
      fun a ha => Nat.lt_succ_of_lt (h.admissionsOld a ha), ?_⟩
    · intro unit hu
      rcases List.mem_append.mp hu with hu | hu
      · exact List.mem_append_left _ (h.tracked unit hu)
      · rw [List.mem_singleton.mp hu]
        exact List.mem_append_right _ (List.mem_singleton_self _)
    · intro a ha unit hu
      have hold : a.id < i.barrier.fresh := h.admissionsOld a ha
      rcases List.mem_append.mp hu with hu | hu
      · exact h.apart a ha unit hu
      · rw [List.mem_singleton.mp hu]
        exact Nat.ne_of_lt hold
    · intro unit hu unit' hu' heq
      rcases List.mem_append.mp hu with hu | hu
      · rcases List.mem_append.mp hu' with hu' | hu'
        · exact h.distinct unit hu unit' hu' heq
        · have hold : unit.id < i.barrier.fresh := h.trackedOld unit hu
          rw [List.mem_singleton.mp hu'] at heq
          exact absurd heq (Nat.ne_of_lt hold)
      · rcases List.mem_append.mp hu' with hu' | hu'
        · have hold : unit'.id < i.barrier.fresh := h.trackedOld unit' hu'
          rw [List.mem_singleton.mp hu] at heq
          exact absurd heq.symm (Nat.ne_of_lt hold)
        · rw [List.mem_singleton.mp hu, List.mem_singleton.mp hu']
    · intro unit hu
      show unit.id < i.barrier.fresh + 1
      rcases List.mem_append.mp hu with hu | hu
      · exact Nat.lt_succ_of_lt (h.trackedOld unit hu)
      · rw [List.mem_singleton.mp hu]
        exact Nat.lt_succ_self _
  | settled unit hunit =>
    refine ⟨?_, ?_, ?_, ?_, h.admissionsOld, ?_⟩
    · intro a ha hr
      exact List.mem_filter.mpr ⟨h.admissions a ha hr, decide_eq_true (h.apart a ha unit hunit)⟩
    · intro other hother
      obtain ⟨hmem, hne⟩ := List.mem_filter.mp hother
      refine List.mem_filter.mpr ⟨h.tracked other hmem, decide_eq_true fun heq => ?_⟩
      exact of_decide_eq_true hne (h.distinct other hmem unit hunit heq)
    · intro a ha other hother
      exact h.apart a ha other (List.mem_filter.mp hother).1
    · intro other hother other' hother'
      exact h.distinct other (List.mem_filter.mp hother).1 other' (List.mem_filter.mp hother').1
    · intro other hother
      exact h.trackedOld other (List.mem_filter.mp hother).1
  | released admission hadmission _ =>
    -- a handle is marked released by its identity, so what is left unreleased has another one
    have hfrom : ∀ a ∈ i.admissions.map (fun other => if other.id = admission.id then { other with released := true } else other),
        ∃ other ∈ i.admissions, a.id = other.id ∧ (a.released = false → a = other ∧ other.id ≠ admission.id) := by
      intro a ha
      obtain ⟨other, hother, rfl⟩ := List.mem_map.mp ha
      refine ⟨other, hother, ?_⟩
      split
      · exact ⟨rfl, fun hr => nomatch hr⟩
      · rename_i hne
        exact ⟨rfl, fun _ => ⟨rfl, hne⟩⟩
    refine ⟨?_, ?_, ?_, h.distinct, ?_, h.trackedOld⟩
    · intro a ha hr
      obtain ⟨other, hother, _, heq⟩ := hfrom a ha
      obtain ⟨rfl, hne⟩ := heq hr
      exact List.mem_filter.mpr ⟨h.admissions a hother hr, decide_eq_true hne⟩
    · intro unit hu
      refine List.mem_filter.mpr ⟨h.tracked unit hu, decide_eq_true fun heq => ?_⟩
      exact h.apart admission hadmission unit hu heq.symm
    · intro a ha unit hu
      obtain ⟨other, hother, hid, _⟩ := hfrom a ha
      rw [hid]
      exact h.apart other hother unit hu
    · intro a ha
      obtain ⟨other, hother, hid, _⟩ := hfrom a ha
      show a.id < i.barrier.fresh
      rw [hid]
      exact h.admissionsOld other hother

/-- Invocations and their units are left alone. -/
structure Undisturbed (i i' : Instance V) : Prop where
  units : i'.barrier.units = i.barrier.units
  fresh : i'.barrier.fresh = i.barrier.fresh
  admissions : i'.admissions = i.admissions
  tracked : i'.tracked = i.tracked

theorem Counted.undisturbed (h : Counted i) (hsame : Undisturbed i i') : Counted i' := by
  obtain ⟨hunits, hfresh, hadmissions, htracked⟩ := hsame
  refine ⟨?_, ?_, ?_, ?_, ?_, ?_⟩
  · rw [hadmissions, hunits]
    exact h.admissions
  · rw [htracked, hunits]
    exact h.tracked
  · rw [hadmissions, htracked]
    exact h.apart
  · rw [htracked]
    exact h.distinct
  · rw [hadmissions, hfresh]
    exact h.admissionsOld
  · rw [htracked, hfresh]
    exact h.trackedOld

theorem running_zero {mode : OpsMode} (h : b.running mode = 0) : ∀ unit ∈ b.units, admitted mode unit.kind = true := by
  intro unit hunit
  have hnil := List.eq_nil_of_length_eq_zero h
  have hno := List.filter_eq_nil_iff.mp hnil unit hunit
  simpa using hno

/-! ## One step of a living instance -/

variable [DecidableEq V]

variable {event : Event} {evs : List Event}

theorem step_later (h : Ordered etag s) (hmove : Moves etag s event s') (hlife : s.life = .alive i)
    (hlife' : s'.life = .alive i') : Later i i' := by
  have halive := h.alive hlife
  cases hmove with
  | idle =>
    rw [hlife] at hlife'
    cases hlife'
    exact .of_same rfl rfl
  | load habsent =>
    rw [habsent] at hlife
    cases hlife
  | loaded found frozen hloading _ =>
    rw [hloading] at hlife
    cases hlife
  | notLoaded => cases hlife'
  | evicted => cases hlife'
  | lateState index request version _ =>
    have hsame : s.life = .alive i' := hlife'
    rw [hlife] at hsame
    cases hsame
    exact .of_same rfl rfl
  | lateFrozen index record _ =>
    have hsame : s.life = .alive i' := hlife'
    rw [hlife] at hsame
    cases hsame
    exact .of_same rfl rfl
  | aside _ j j' hj haside =>
    rw [hlife] at hj
    cases hj
    cases hlife'
    exact haside.later
  | publish j request frozen b hj hturn hup =>
    rw [hlife] at hj
    cases hj
    cases hlife'
    obtain ⟨hpass, hb⟩ := takeUp_publish hup
    by_cases hrank : rank request.mode > rank i.barrier.mode
    · rw [if_pos hrank] at hb
      subst hb
      exact ⟨stamp_le_of_accepts hpass, fun e he => .inl he⟩
    · rw [if_neg hrank] at hb
      subst hb
      exact .of_same rfl rfl
  | opened j request attempt version hj hturn _ =>
    rw [hlife] at hj
    cases hj
    cases hlife'
    exact ⟨stamp_le_of_accepts (halive.turn _ hturn).1, fun e he => .inl he⟩
  | restricted j request attempt version hj hturn _ =>
    rw [hlife] at hj
    cases hj
    cases hlife'
    exact ⟨stamp_le_of_accepts (halive.turn _ hturn).1, fun e he => .inl he⟩
  | adopted j request attempt found hj hturn hrefused =>
    rw [hlife] at hj
    cases hj
    cases hlife'
    exact ⟨stamp_le_of_adopted (halive.turn _ hturn).1 hrefused, fun e he => .inl he⟩
  | marks j b record hj hturn hwrite =>
    rw [hlife] at hj
    cases hj
    cases hlife'
    obtain ⟨generation, _, _, rfl, _⟩ := restrictedWrite_some hwrite
    exact .of_same rfl rfl
  | refused j | again j | putLands j | conflict j | putLost j | answerLost j | readLands j | retried j | exhausted j | readLost j
  | frozenLands j | markLands j | frozenAnswers j | frozenFails j | marked j | markFails j | drained j | work j | cleared j
  | done j =>
    have hj : s.life = .alive j := by assumption
    rw [hlife] at hj
    cases hj
    cases hlife'
    exact .of_same rfl rfl

/-- An instance is the one that was alive before, or has just been loaded. -/
theorem step_alive (hmove : Moves etag s event s') (hlife' : s'.life = .alive i') :
    (∃ i, s.life = .alive i) ∨ ∃ found frozen, s.life = .loading found ∧
      (frozen = s.frozen ∨ found.all (fun found => decide (found.state.mode = .open)) = true) ∧
      i' = ⟨load found frozen, none, [], [], []⟩ := by
  cases hmove with
  | idle => exact .inl ⟨i', hlife'⟩
  | load habsent => cases hlife'
  | loaded found frozen hloading hfrozen =>
    cases hlife'
    exact .inr ⟨found, frozen, hloading, hfrozen, rfl⟩
  | notLoaded => cases hlife'
  | evicted => cases hlife'
  | lateState => exact .inl ⟨i', hlife'⟩
  | lateFrozen => exact .inl ⟨i', hlife'⟩
  | _ => exact .inl ⟨_, by assumption⟩

theorem step_stays_alive (hmove : Moves etag s event s') (hlife : s.life = .alive i) (hevent : event ≠ .evict) :
    ∃ i', s'.life = .alive i' := by
  cases hmove with
  | idle => exact ⟨i, hlife⟩
  | load habsent =>
    rw [habsent] at hlife
    cases hlife
  | notLoaded => exact absurd rfl hevent
  | evicted => exact absurd rfl hevent
  | lateState => exact ⟨i, hlife⟩
  | lateFrozen => exact ⟨i, hlife⟩
  | _ => exact ⟨_, rfl⟩

/-- No event was captured at a later generation than memory's. -/
def Captured (s : System V) : Prop :=
  ∀ i, s.life = .alive i → ∀ e ∈ i.captured, stamp e.generation ≤ stamp i.barrier.generation

theorem step_captured (h : Ordered etag s) (hcaptured : Captured s) (hmove : Moves etag s event s') : Captured s' := by
  intro i' hlife' e he
  rcases step_alive hmove hlife' with ⟨i, hlife⟩ | ⟨found, frozen, _, _, rfl⟩
  · have hlater := step_later h hmove hlife hlife'
    rcases hlater.captured e he with hold | hnew
    · exact Nat.le_trans (hcaptured i hlife e hold) hlater.generation
    · exact hnew
  · cases he

theorem step_holding (h : Ordered etag s) (hholding : Holding request s.history i) (hmove : Moves etag s event s')
    (hevent : ∀ r frozen, event ≠ .takeUp r frozen) (hlife : s.life = .alive i) (hlife' : s'.life = .alive i') :
    Holding request s'.history i' := by
  have halive := h.alive hlife
  have hsub : s.history ⊆ s'.history := (step_grows hmove).1.subset
  cases hmove with
  | idle =>
    rw [hlife] at hlife'
    cases hlife'
    exact hholding
  | load habsent =>
    rw [habsent] at hlife
    cases hlife
  | loaded found frozen hloading _ =>
    rw [hloading] at hlife
    cases hlife
  | notLoaded => cases hlife'
  | evicted => cases hlife'
  | lateState index request version _ =>
    have hsame : s.life = .alive i' := hlife'
    rw [hlife] at hsame
    cases hsame
    exact hholding.same hsub rfl (fun stage hs => .inr ⟨stage, hs, rfl⟩)
  | lateFrozen index record _ =>
    have hsame : s.life = .alive i' := hlife'
    rw [hlife] at hsame
    cases hsame
    exact hholding
  | aside _ j j' hj haside =>
    rw [hlife] at hj
    cases hj
    cases hlife'
    refine hholding.same hsub haside.same.current ?_
    intro stage hs
    exact .inr ⟨stage, haside.same.turn ▸ hs, rfl⟩
  | refused | publish | again => exact absurd rfl (hevent _ _)
  | opened j r attempt version hj hturn _ =>
    rw [hlife] at hj
    cases hj
    cases hlife'
    obtain ⟨rfl, _⟩ := hholding.request_eq hturn rfl
    refine .taken rfl ?_
    intro stage r' hs hr
    cases hs
    cases hr
    rfl
  | restricted j r attempt version hj hturn _ =>
    rw [hlife] at hj
    cases hj
    cases hlife'
    obtain ⟨rfl, _⟩ := hholding.request_eq hturn rfl
    refine .taken rfl ?_
    intro stage r' hs hr
    cases hs
    cases hr
    rfl
  | adopted j r attempt found hj hturn hrefused =>
    rw [hlife] at hj
    cases hj
    cases hlife'
    obtain ⟨rfl, _⟩ := hholding.request_eq hturn rfl
    obtain ⟨_, hseen⟩ := halive.turn _ hturn
    refine .adopted found.state ?_ rfl hrefused (fun stage hs => nomatch hs)
    rcases hseen with ⟨hnone, _⟩ | ⟨c, n, hc, _, hmem⟩
    · cases hnone
    · cases hc
      exact hmem
  | marks j b record hj hturn hwrite =>
    rw [hlife] at hj
    cases hj
    cases hlife'
    refine hholding.same hsub (restrictedWrite_same hwrite).2.2 ?_
    intro stage hs
    cases hs
    exact .inl rfl
  | putLands j _ _ hj hturn | conflict j _ _ hj hturn | readLands j _ _ hj hturn | retried j _ _ _ hj hturn
  | frozenLands j _ _ hj hturn | frozenAnswers j _ _ hj hturn | frozenFails j _ _ _ hj hturn =>
    rw [hlife] at hj
    cases hj
    cases hlife'
    refine hholding.same hsub rfl ?_
    intro stage hs
    cases hs
    exact .inr ⟨_, hturn, rfl⟩
  | markLands j | marked j | work j | cleared j =>
    have hj : s.life = .alive j := by assumption
    rw [hlife] at hj
    cases hj
    cases hlife'
    refine hholding.same hsub rfl ?_
    intro stage hs
    cases hs
    exact .inl rfl
  | putLost j | answerLost j | exhausted j | readLost j | markFails j | drained j | done j =>
    have hj : s.life = .alive j := by assumption
    rw [hlife] at hj
    cases hj
    cases hlife'
    exact hholding.same hsub rfl (fun stage hs => nomatch hs)

theorem step_undisturbed (hmove : Moves etag s event s') (hlife : s.life = .alive i) (hlife' : s'.life = .alive i') :
    Aside i i' ∨ Undisturbed i i' := by
  cases hmove with
  | idle | lateState | lateFrozen =>
    have hsame : s.life = .alive i' := hlife'
    rw [hlife] at hsame
    cases hsame
    exact .inr ⟨rfl, rfl, rfl, rfl⟩
  | load habsent =>
    rw [habsent] at hlife
    cases hlife
  | loaded found frozen hloading _ =>
    rw [hloading] at hlife
    cases hlife
  | notLoaded | evicted => cases hlife'
  | aside _ j j' hj haside =>
    rw [hlife] at hj
    cases hj
    cases hlife'
    exact .inl haside
  | publish j request frozen b hj hturn hup =>
    rw [hlife] at hj
    cases hj
    cases hlife'
    obtain ⟨_, hb⟩ := takeUp_publish hup
    right
    split at hb <;> subst hb <;> exact ⟨rfl, rfl, rfl, rfl⟩
  | marks j b record hj hturn hwrite =>
    rw [hlife] at hj
    cases hj
    cases hlife'
    obtain ⟨generation, _, _, rfl, _⟩ := restrictedWrite_some hwrite
    exact .inr ⟨rfl, rfl, rfl, rfl⟩
  | refused j | again j | putLands j | conflict j | opened j | restricted j | putLost j | answerLost j | readLands j | adopted j
  | retried j | exhausted j | readLost j | frozenLands j | markLands j | frozenAnswers j | frozenFails j | marked j | markFails j
  | drained j | work j | cleared j | done j =>
    have hj : s.life = .alive j := by assumption
    rw [hlife] at hj
    cases hj
    cases hlife'
    exact .inr ⟨rfl, rfl, rfl, rfl⟩

def AllCounted (s : System V) : Prop := ∀ i, s.life = .alive i → Counted i

theorem step_counted (h : AllCounted s) (hmove : Moves etag s event s') : AllCounted s' := by
  intro i' hlife'
  rcases step_alive hmove hlife' with ⟨i, hlife⟩ | ⟨found, frozen, _, _, rfl⟩
  · rcases step_undisturbed hmove hlife hlife' with haside | hsame
    · exact (h i hlife).aside haside
    · exact (h i hlife).undisturbed hsame
  · exact ⟨(fun _ ha => nomatch ha), (fun _ hu => nomatch hu), (fun _ ha => nomatch ha), (fun _ hu => nomatch hu),
      (fun _ ha => nomatch ha), (fun _ hu => nomatch hu)⟩

/-! ## The fence -/

variable (etag) in
/-- A step that takes up only what heeds R2 as last read. -/
def Heeding (s : System V) (event : Event) (s' : System V) : Prop := Heeds s event ∧ Step etag s event s'

/-- What the barrier promises over every run. -/
structure Fences (step : System V → Event → System V → Prop) : Prop where
  /-- The generation R2 holds never decreases, and no generation changes its mode. -/
  stored : ∀ evs evs' s s', Run step initial evs s → Run step s evs' s' → ∀ a, s.history.getLast? = some a →
    ∃ c, s'.history.getLast? = some c ∧ Follows a c
  /-- After an acknowledgement nothing it refuses is stored or acknowledged. -/
  acked : ∀ evs evs' s s', Run step initial evs s → Run step s evs' s' → ∀ a ∈ acknowledged s.results,
    (∀ c ∈ s'.history.drop s.history.length, opsTransitionRefused (some a) c = false) ∧
      ∀ c ∈ (acknowledged s'.results).drop (acknowledged s.results).length, opsTransitionRefused (some a) c = false
  writable : ∀ evs s i, Run step initial evs s → s.life = .alive i → ∀ e : BarrierEvent,
    i.barrier.writable e.generation e.mode = true → e.mode = .open ∧ i.barrier.mode = .open ∧ i.barrier.generation = e.generation
  /-- From the instant a tightening transition is taken up, as long as the instance lives: no event
      captured before is admitted or lets a write commit; and until the next transition is taken up no
      kind the new mode forbids is admitted, unless R2 turned out to hold a state that refuses it. -/
  tightened : ∀ evs evs' s s' s'' i i'' request frozen, Run step initial evs s → s.life = .alive i → i.turn = none →
    opsTransitionRefused i.barrier.current request = false → rank request.mode > rank i.barrier.mode →
    step s (.takeUp request frozen) s' → Run step s' evs' s'' → .evict ∉ evs' → s''.life = .alive i'' →
      (∀ e ∈ i.captured, i''.barrier.writable e.generation e.mode = false ∧ ∀ kind, i''.barrier.admits kind e.generation = none) ∧
      ((∀ r f, .takeUp r f ∉ evs') →
        (∀ kind generation, admitted request.mode kind = false → i''.barrier.admits kind generation = none) ∨
        ∃ c ∈ s''.history, i''.barrier.current = some c ∧ opsTransitionRefused (some c) request = true)
  /-- An acknowledgement that counts nothing leaves no forbidden invocation and no forbidden work. -/
  drained : ∀ evs s event s' request generation mode, Run step initial evs s → step s event s' →
    s'.results = s.results ++ [(request, .acknowledged ⟨generation, mode, 0⟩)] →
      ∃ i, s'.life = .alive i ∧ (∀ a ∈ i.admissions, a.released = false → admitted mode a.kind = true) ∧
        ∀ unit ∈ i.tracked, admitted mode unit.kind = true

/-- All that holds in every state a heeding run reaches. -/
structure Invariant (etag : Nat → OpsPublishedState → V) (s : System V) : Prop where
  ordered : Ordered etag s
  captured : Captured s
  counted : AllCounted s

theorem heeding_moves (h : Heeding etag s event s') : Moves etag s event s' := by
  obtain ⟨_, rfl⟩ := h
  exact next_moves s event

theorem heeding_invariant (hetag : Names etag) (h : Invariant etag s) (hstep : Heeding etag s event s') :
    Invariant etag s' := by
  have hmove := heeding_moves hstep
  exact ⟨step_ordered hetag h.ordered hstep.1 hmove, step_captured h.ordered h.captured hmove, step_counted h.counted hmove⟩

omit [DecidableEq V] in
theorem initial_invariant : Invariant etag (initial : System V) := by
  refine ⟨⟨.nil, ?_, .nil, ?_, trivial⟩, ?_, ?_⟩
  · intro a ha
    cases ha
  · intro request version hput
    cases hput
  · intro i hlife
    cases hlife
  · intro i hlife
    cases hlife

theorem reachable_invariant (hetag : Names etag) (h : Run (Heeding etag) initial evs s) : Invariant etag s :=
  h.invariant initial_invariant fun _ _ _ hinv hstep => heeding_invariant hetag hinv hstep

theorem run_invariant (hetag : Names etag) (hinv : Invariant etag s) (h : Run (Heeding etag) s evs s') : Invariant etag s' :=
  h.invariant hinv fun _ _ _ hinv hstep => heeding_invariant hetag hinv hstep

theorem run_grows (h : Run (Heeding etag) s evs s') : s.history <+: s'.history ∧ s.results <+: s'.results := by
  refine h.invariant (P := fun s' => s.history <+: s'.history ∧
    s.results <+: s'.results) ⟨List.prefix_refl _, List.prefix_refl _⟩ ?_
  intro s' event s'' hprev hstep
  have hgrow := step_grows (heeding_moves hstep)
  exact ⟨hprev.1.trans hgrow.1, hprev.2.trans hgrow.2⟩

/-- As long as the instance lives, its generation only moves on. -/
theorem run_later (hetag : Names etag) (hinv : Invariant etag s) (h : Run (Heeding etag) s evs s') (hlife : s.life = .alive i)
    (hevict : Event.evict ∉ evs) : ∃ i', s'.life = .alive i' ∧ stamp i.barrier.generation ≤ stamp i'.barrier.generation := by
  induction h with
  | nil => exact ⟨i, hlife, Nat.le_refl _⟩
  | @snoc evs m s' event hr hs ih =>
    rw [List.mem_append, not_or] at hevict
    obtain ⟨j, hj, hle⟩ := ih hevict.1
    have hmove := heeding_moves hs
    have hne : event ≠ .evict := fun heq => hevict.2 (List.mem_singleton.mpr heq.symm)
    obtain ⟨i', hi'⟩ := step_stays_alive hmove hj hne
    have hm : Invariant etag m := run_invariant hetag hinv hr
    exact ⟨i', hi', Nat.le_trans hle (step_later hm.ordered hmove hj hi').generation⟩

theorem run_holding (hetag : Names etag) (hinv : Invariant etag s) (h : Run (Heeding etag) s evs s') (hlife : s.life = .alive i)
    (hholding : Holding request s.history i) (hevict : Event.evict ∉ evs) (htake : ∀ r f, Event.takeUp r f ∉ evs) :
    ∃ i', s'.life = .alive i' ∧ Holding request s'.history i' := by
  induction h with
  | nil => exact ⟨i, hlife, hholding⟩
  | @snoc evs m s' event hr hs ih =>
    rw [List.mem_append, not_or] at hevict
    obtain ⟨j, hj, hhold⟩ := ih hevict.1 (fun r f hmem => htake r f (List.mem_append_left _ hmem))
    have hmove := heeding_moves hs
    have hne : event ≠ .evict := fun heq => hevict.2 (List.mem_singleton.mpr heq.symm)
    have htake' : ∀ r f, event ≠ .takeUp r f := by
      intro r f heq
      exact htake r f (List.mem_append_right _ (List.mem_singleton.mpr heq.symm))
    obtain ⟨i', hi'⟩ := step_stays_alive hmove hj hne
    have hm : Invariant etag m := run_invariant hetag hinv hr
    exact ⟨i', hi', step_holding hm.ordered hhold hmove htake' hj hi'⟩

theorem rank_le (mode : OpsMode) : rank mode ≤ 3 := by
  cases mode <;> decide

variable (etag) in
/-- A tightening transition is in memory as soon as it is taken up. -/
theorem tightening_taken (frozen : Bool) (hlife : s.life = .alive i) (hturn : i.turn = none)
    (hpass : opsTransitionRefused i.barrier.current request = false) (hrank : rank request.mode > rank i.barrier.mode) :
    (next etag s (.takeUp request frozen)).life = .alive
      { i with barrier := { i.barrier with mode := request.mode, generation := some request.generation }
               turn := some (.putting request 0) } := by
  have hinspect : i.barrier.mode ≠ .inspect := by
    intro heq
    have hle : rank request.mode ≤ 3 := rank_le request.mode
    rw [heq] at hrank
    have hlt : 3 < rank request.mode := hrank
    omega
  have hretry : (i.barrier.current.any fun current => decide (current.generation = request.generation)) = false := by
    have hlt := stamp_lt_of_tightening hpass hrank
    cases hgen : i.barrier.generation with
    | none => simp [Barrier.current, hgen]
    | some generation =>
      rw [hgen] at hlt
      have hne : generation ≠ request.generation := by
        intro heq
        rw [heq] at hlt
        exact Nat.lt_irrefl _ hlt
      simp [Barrier.current, hgen, hne]
  have hup : i.barrier.takeUp request frozen =
      .publish { i.barrier with mode := request.mode, generation := some request.generation } := by
    unfold Barrier.takeUp
    rw [if_neg (by simp [hpass]), if_neg (fun h => hinspect h.1)]
    dsimp only
    rw [if_pos (.inl hretry), if_pos hrank]
  simp only [next, hlife, react, if_pos hturn, takeUp, hup]
  rfl

theorem tightened_fence {frozen : Bool} (hetag : Names etag) (hinv : Invariant etag s) (hlife : s.life = .alive i)
    (hturn : i.turn = none) (hpass : opsTransitionRefused i.barrier.current request = false)
    (hrank : rank request.mode > rank i.barrier.mode) (hheeds : Heeds s (.takeUp request frozen))
    (hrun : Run (Heeding etag) (next etag s (.takeUp request frozen)) evs s') (hevict : Event.evict ∉ evs)
    (hlife' : s'.life = .alive i') : ∀ e ∈ i.captured,
      i'.barrier.writable e.generation e.mode = false ∧ ∀ kind, i'.barrier.admits kind e.generation = none := by
  have htaken := tightening_taken etag frozen hlife hturn hpass hrank
  have hinv' := heeding_invariant hetag hinv ⟨hheeds, rfl⟩
  obtain ⟨j, hj, hle⟩ := run_later hetag hinv' hrun htaken hevict
  rw [hj] at hlife'
  cases hlife'
  intro e he
  apply fenced_of_generation_ne
  intro heq
  have hbefore : stamp e.generation ≤ stamp i.barrier.generation := hinv.captured i hlife e he
  have hlt : stamp i.barrier.generation < stamp (some request.generation) := stamp_lt_of_tightening hpass hrank
  have hle : stamp (some request.generation) ≤ stamp i'.barrier.generation := hle
  rw [heq] at hle
  omega

/-- An acknowledgement is the answer of a turn that drained. -/
theorem acknowledged_by_drain {ack : OpsStateAck} (hmove : Moves etag s event s')
    (hresults : s'.results = s.results ++ [(request, .acknowledged ack)]) :
    ∃ i mode, s.life = .alive i ∧ i.turn = some (.draining request mode) ∧
      s' = s.answer i request (.acknowledged ⟨request.generation, request.mode, i.barrier.running mode⟩) ∧
      ack = ⟨request.generation, request.mode, i.barrier.running mode⟩ := by
  have hsame : s.results ≠ s.results ++ [(request, .acknowledged ack)] := by
    intro heq
    have hlength := congrArg List.length heq
    simp at hlength
  have hanswer : ∀ r result, s.results ++ [(r, result)] = s.results ++ [(request, .acknowledged ack)] →
      r = request ∧ result = .acknowledged ack := by
    intro r result heq
    have htail := List.append_cancel_left heq
    cases htail
    exact ⟨rfl, rfl⟩
  cases hmove with
  | drained i r mode hlife hturn =>
    obtain ⟨rfl, heq⟩ := hanswer _ _ hresults
    cases heq
    exact ⟨i, mode, hlife, hturn, rfl, rfl⟩
  | refused i r frozen result _ _ hup =>
    obtain ⟨_, rfl⟩ := hanswer _ _ hresults
    rcases takeUp_answer hup with heq | heq <;> cases heq
  | putLost | answerLost | adopted | exhausted | readLost =>
    obtain ⟨_, heq⟩ := hanswer _ _ hresults
    cases heq
  | _ => exact absurd hresults hsame

/-- In every run whose transitions heed what the instance last read of R2, the barrier keeps all
    it promises. -/
theorem fences (hetag : Names etag) : Fences (Heeding etag) where
  stored := by
    intro evs evs' s s' hrun hrun' a ha
    have hinv' := run_invariant hetag (reachable_invariant hetag hrun) hrun'
    have hmem : a ∈ s'.history := (run_grows hrun').1.subset (List.mem_of_getLast? ha)
    cases hlast : s'.history.getLast? with
    | none =>
      rw [List.getLast?_eq_none_iff.mp hlast] at hmem
      cases hmem
    | some c => exact ⟨c, rfl, follows_last hinv'.ordered.history hlast hmem⟩
  acked := by
    intro evs evs' s s' hrun hrun' a ha
    have hinv := reachable_invariant hetag hrun
    have hinv' := run_invariant hetag hinv hrun'
    obtain ⟨hhistory, hresults⟩ := run_grows hrun'
    constructor
    · intro c hc
      have htake : a ∈ s'.history.take s.history.length := by
        rw [← List.prefix_iff_eq_take.mp hhistory]
        exact hinv.ordered.ackedHeld a ha
      exact refused_eq_false_iff.mpr (hinv'.ordered.history.rel_of_mem_take_of_mem_drop htake hc)
    · intro c hc
      obtain ⟨rest, hrest⟩ := hresults
      have hacks : acknowledged s'.results = acknowledged s.results ++ acknowledged rest := by
        rw [← hrest]
        exact List.filterMap_append
      have htake : a ∈ (acknowledged s'.results).take (acknowledged s.results).length := by
        rw [hacks, List.take_left]
        exact ha
      exact refused_eq_false_iff.mpr (hinv'.ordered.ackedInOrder.rel_of_mem_take_of_mem_drop htake hc)
  writable := by
    intro evs s i hrun hlife e hwritable
    exact of_decide_eq_true hwritable
  tightened := by
    intro evs evs' s s' s'' i i'' request frozen hrun hlife hturn hpass hrank hstep hrun' hevict hlife''
    have hinv := reachable_invariant hetag hrun
    obtain ⟨hheeds, rfl⟩ := hstep
    refine ⟨tightened_fence hetag hinv hlife hturn hpass hrank hheeds hrun' hevict hlife'', ?_⟩
    intro htake
    have htaken := tightening_taken etag frozen hlife hturn hpass hrank
    have hinv' := heeding_invariant hetag hinv ⟨hheeds, rfl⟩
    have hholding : Holding request (next etag s (.takeUp request frozen)).history
        { i with barrier := { i.barrier with mode := request.mode, generation := some request.generation }
                 turn := some (.putting request 0) } := by
      refine .taken rfl ?_
      intro stage r hs hr
      cases hs
      cases hr
      rfl
    obtain ⟨j, hj, hhold⟩ := run_holding hetag hinv' hrun' htaken hholding hevict htake
    rw [hj] at hlife''
    cases hlife''
    cases hhold with
    | taken hcurrent _ =>
      left
      intro kind generation hforbidden
      apply admit_forbidden
      obtain ⟨g, _, hstate⟩ := Option.map_eq_some_iff.mp hcurrent
      rw [← hstate] at hforbidden
      exact hforbidden
    | adopted c hmem hcurrent hrefused _ => exact .inr ⟨c, hmem, hcurrent, hrefused⟩
  drained := by
    intro evs s event s' request generation mode hrun hstep hresults
    have hinv := reachable_invariant hetag hrun
    have hmove := heeding_moves hstep
    obtain ⟨i, drained, hlife, hturn, rfl, hack⟩ := acknowledged_by_drain hmove hresults
    obtain ⟨_, _, hmode⟩ := (hinv.ordered.alive hlife).turn _ hturn
    subst hmode
    have hcounted : Counted i := hinv.counted i hlife
    have hmode : mode = request.mode := congrArg OpsStateAck.mode hack
    have hzero : i.barrier.running mode = 0 := by
      rw [hmode]
      exact (congrArg OpsStateAck.stillRunning hack).symm
    refine ⟨{ i with turn := none }, rfl, ?_, ?_⟩
    · intro a ha hreleased
      exact running_zero hzero _ (hcounted.admissions a ha hreleased)
    · intro unit hunit
      exact running_zero hzero _ (hcounted.tracked unit hunit)

/-! ## A run without that care, and one with it -/

def heeds (s : System V) : Event → Bool
  | .takeUp request _ => match s.life with
    | .alive i =>
    i.turn.isSome || opsTransitionRefused i.barrier.current request || !opsTransitionRefused i.barrier.stored request
    | _ => true
  | _ => true

omit [DecidableEq V] in
theorem heeds_sound (h : heeds s event = true) : Heeds s event := by
  cases event with
  | takeUp request frozen =>
    intro i hlife hturn hpass
    simp only [heeds, hlife, hturn, hpass] at h
    simpa using h
  | _ => exact trivial

variable (etag) in
theorem run_foldl (s : System V) (evs : List Event) : Run (Step etag) s evs (evs.foldl (next etag) s) := by
  induction evs using List.reverseRecOn with
  | nil => exact .nil
  | append_singleton evs event ih =>
    rw [List.foldl_append]
    exact .snoc ih rfl

variable (etag) in
def heeded (s : System V) : List Event → Bool
  | [] => true
  | event :: evs => heeds s event && heeded (next etag s event) evs

theorem heeded_append (s : System V) (evs : List Event) (event : Event) :
    heeded etag s (evs ++ [event]) = (heeded etag s evs && heeds (evs.foldl (next etag) s) event) := by
  induction evs generalizing s with
  | nil => simp [heeded]
  | cons first evs ih => simp only [List.cons_append, heeded, ih, List.foldl_cons, Bool.and_assoc]

variable (etag) in
theorem heeding_foldl (s : System V) (evs : List Event) (h : heeded etag s evs = true) :
    Run (Heeding etag) s evs (evs.foldl (next etag) s) := by
  induction evs using List.reverseRecOn with
  | nil => exact .nil
  | append_singleton evs event ih =>
    rw [heeded_append, Bool.and_eq_true] at h
    rw [List.foldl_append]
    exact .snoc (ih h.1) ⟨heeds_sound h.2, rfl⟩

/-- R2 numbers what it is given. -/
def numbered (n : Nat) (state : OpsPublishedState) : Nat × OpsPublishedState := (n, state)

/-- The put of generation 3 took effect and its answer was lost; generation 5 met it, and its second
    put failed, which leaves memory behind what the instance has read. Generation 2, delayed until
    now, overwrites 3. -/
theorem a_stored_generation_is_overwritten : ¬ Fences (Step numbered) := by
  intro h
  have hbefore := run_foldl numbered initial [.load, .loaded, .takeUp ⟨3, .open⟩ false, .putLands, .putFails]
  have hafter := run_foldl numbered
    ([.load, .loaded, .takeUp ⟨3, .open⟩ false, .putLands, .putFails].foldl (next numbered) initial)
    [.takeUp ⟨5, .open⟩ false, .putLands, .putAnswers, .readLands, .readAnswers, .putFails, .takeUp ⟨2, .closed⟩ false, .putLands]
  obtain ⟨c, hlast, hfollows⟩ := h.stored _ _ _ _ hbefore hafter ⟨3, .open⟩ (by decide)
  have hnow : some c = some ⟨2, .closed⟩ := by
    rw [← hlast]
    decide
  cases hnow
  rcases hfollows with hlt | heq
  · exact absurd hlt (by decide)
  · exact absurd heq (by decide)

theorem numbered_names : Names numbered := fun _ _ _ _ h => congrArg Prod.snd h

/-- A close whose first answer was lost, retried until R2's own copy of it is found. -/
def closing : List Event :=
  [.load, .loaded, .capture, .takeUp ⟨1, .closed⟩ false, .putLands, .putFails, .takeUp ⟨1, .closed⟩ false, .putLands, .putAnswers,
   .readLands, .readAnswers, .putLands, .putAnswers, .frozenLands, .frozenAnswers, .drained]

theorem a_retried_close_is_fenced : acknowledged (closing.foldl (next numbered) initial).results = [⟨1, .closed⟩] ∧
    ∀ evs s, Run (Heeding numbered) (closing.foldl (next numbered) initial) evs s →
      ∀ c ∈ s.history.drop 2, opsTransitionRefused (some ⟨1, .closed⟩) c = false := by
  have hacked : acknowledged (closing.foldl (next numbered) initial).results = [⟨1, .closed⟩] := by decide
  refine ⟨hacked, ?_⟩
  intro evs s hrun c hc
  have hclosing := heeding_foldl numbered initial closing (by decide)
  have hfence :=
    (fences numbered_names).acked _ _ _ _ hclosing hrun ⟨1, .closed⟩ (by rw [hacked]; exact List.mem_singleton_self _)
  have hlength : (closing.foldl (next numbered) initial).history.length = 2 := by decide
  rw [hlength] at hfence
  exact hfence.1 c hc

end Fabrika.App.Maintenance
