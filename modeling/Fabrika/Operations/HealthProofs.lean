/-
  Fabrika.Operations.HealthProofs — the alerts of a health check.

  `Moves` is all one attempt can do to a check's state and counts. Over a run from no prior state
  the counts are the streaks of the attempts (`Counts`), so an alert comes only with the last of
  a threshold's worth of attempts in a row. The alerts alternate, and a healthy check has none
  open, in every run that never finds the check in a state it forgets (`Standing`). With both
  thresholds above one there is a run that does: `an_open_alert_is_forgotten`.
-/

import Mathlib.Data.List.Induction
import Fabrika.Lib.Keeps
import Fabrika.Operations.Health

namespace Fabrika.Operations.Health

open Fabrika.Lib

/-! ## What one attempt does -/

/-- What `decideHttpHealth` reads of the prior state. -/
structure Phase where
  state : HealthState
  failures : Int
  successes : Int
  deriving DecidableEq

def phaseOf : Option CurrentHttpHealth → Phase
  | none => ⟨.healthy, 0, 0⟩
  | some current => ⟨current.state, current.consecutiveFailures, current.consecutiveSuccesses⟩

inductive Moves (failureThreshold recoveryThreshold : Int) (p : Phase) : Bool → Phase → Option HealthAlertKind → Prop
  | degrade : p.failures + 1 < failureThreshold →
      Moves failureThreshold recoveryThreshold p false ⟨.degraded, p.failures + 1, 0⟩ none
  | fail : failureThreshold ≤ p.failures + 1 → p.state ≠ .failed →
      Moves failureThreshold recoveryThreshold p false ⟨.failed, p.failures + 1, 0⟩ (some .failedCheck)
  | stayFailed : failureThreshold ≤ p.failures + 1 → p.state = .failed →
      Moves failureThreshold recoveryThreshold p false ⟨.failed, p.failures + 1, 0⟩ none
  | stayHealthy : p.state = .healthy →
      Moves failureThreshold recoveryThreshold p true ⟨.healthy, 0, recoveryThreshold⟩ none
  | wait : p.state ≠ .healthy → p.successes + 1 < recoveryThreshold →
      Moves failureThreshold recoveryThreshold p true ⟨p.state, 0, p.successes + 1⟩ none
  | recover : p.state = .failed → recoveryThreshold ≤ p.successes + 1 →
      Moves failureThreshold recoveryThreshold p true ⟨.healthy, 0, p.successes + 1⟩ (some .recovery)
  | settle : p.state = .degraded → recoveryThreshold ≤ p.successes + 1 →
      Moves failureThreshold recoveryThreshold p true ⟨.healthy, 0, p.successes + 1⟩ none

def HttpHealthDecision.kind (decision : HttpHealthDecision) : Option HealthAlertKind := decision.transition.map (·.kind)

@[simp] theorem phaseOf_some (current : CurrentHttpHealth) :
    phaseOf (some current) = ⟨current.state, current.consecutiveFailures, current.consecutiveSuccesses⟩ := rfl

section
variable (prior : Option CurrentHttpHealth) (attempt : HttpCheckAttempt) (transitionId : String)
variable (failureThreshold recoveryThreshold : Int)

theorem failureDecision_moves :
    Moves failureThreshold recoveryThreshold (phaseOf prior) false
      (phaseOf (some (failureDecision prior attempt transitionId failureThreshold).current))
      (failureDecision prior attempt transitionId failureThreshold).kind := by
  have hfailures : (prior.map (·.consecutiveFailures)).getD 0 = (phaseOf prior).failures := by
    cases prior <;> rfl
  have hstate : prior.map (·.state) = some .failed ↔ (phaseOf prior).state = .failed := by
    cases prior <;> simp [phaseOf]
  unfold failureDecision HttpHealthDecision.kind
  simp only [hfailures, ne_eq, hstate, phaseOf_some]
  by_cases hlt : (phaseOf prior).failures + 1 < failureThreshold
  · have hge : ¬ (phaseOf prior).failures + 1 ≥ failureThreshold := by omega
    simp only [hge, if_false, reduceCtorEq, false_and, Option.map_none]
    exact .degrade hlt
  · have hge : (phaseOf prior).failures + 1 ≥ failureThreshold := by omega
    by_cases hfailed : (phaseOf prior).state = .failed
    · simp only [hge, if_true, hfailed, not_true_eq_false, and_false, if_false, Option.map_none]
      exact .stayFailed hge hfailed
    · simp only [hge, if_true, hfailed, not_false_eq_true, and_self, Option.map_some]
      exact .fail hge hfailed

theorem successDecision_moves :
    Moves failureThreshold recoveryThreshold (phaseOf prior) true
      (phaseOf (some (successDecision prior attempt transitionId recoveryThreshold).current))
      (successDecision prior attempt transitionId recoveryThreshold).kind := by
  cases prior with
  | none => exact .stayHealthy rfl
  | some current =>
    obtain ⟨state, observedAt, latencyMs, detailCode, failures, successes, id⟩ := current
    cases state with
    | healthy => exact .stayHealthy rfl
    | degraded =>
      by_cases hlt : successes + 1 < recoveryThreshold
      · have hwait := @Moves.wait failureThreshold recoveryThreshold ⟨.degraded, failures, successes⟩ (by simp) hlt
        simpa [successDecision, HttpHealthDecision.kind, Option.filter, hlt] using hwait
      · have hsettle := @Moves.settle failureThreshold recoveryThreshold ⟨.degraded, failures, successes⟩ rfl
          (Int.not_lt.mp hlt)
        simpa [successDecision, HttpHealthDecision.kind, Option.filter, hlt] using hsettle
    | failed =>
      by_cases hlt : successes + 1 < recoveryThreshold
      · have hwait := @Moves.wait failureThreshold recoveryThreshold ⟨.failed, failures, successes⟩ (by simp) hlt
        simpa [successDecision, HttpHealthDecision.kind, Option.filter, hlt] using hwait
      · have hrecover := @Moves.recover failureThreshold recoveryThreshold ⟨.failed, failures, successes⟩ rfl
          (Int.not_lt.mp hlt)
        simpa [successDecision, HttpHealthDecision.kind, Option.filter, hlt] using hrecover

end

variable {input : Input} {failureThreshold recoveryThreshold : Int}

theorem positiveInteger_ok {value n : Int} {label : String} (h : positiveInteger value label = .ok n) : 0 < n := by
  unfold positiveInteger at h
  split at h
  · cases h
  · cases h
    omega

theorem thresholds_pos (ht : thresholds input = .ok (failureThreshold, recoveryThreshold)) :
    0 < failureThreshold ∧ 0 < recoveryThreshold := by
  obtain ⟨f, hf, ht⟩ := except_bind_eq_ok.mp ht
  obtain ⟨r, hr, ht⟩ := except_bind_eq_ok.mp ht
  cases ht
  exact ⟨positiveInteger_ok hf, positiveInteger_ok hr⟩

theorem decide_eq (ht : thresholds input = .ok (failureThreshold, recoveryThreshold)) (prior : Option CurrentHttpHealth)
    (attempt : HttpCheckAttempt) (transitionId : String) :
    decideHttpHealth prior attempt transitionId input =
      .ok (if attempt.successful then successDecision prior attempt transitionId recoveryThreshold
        else failureDecision prior attempt transitionId failureThreshold) := by
  unfold decideHttpHealth
  rw [ht]
  cases hs : attempt.successful <;> simp [bind, Except.bind, pure, Except.pure]

variable {check : Check} {o : Observation} {observations : List Observation} {kinds : List HealthAlertKind}

variable {p : Phase}

theorem decide_moves (ht : thresholds input = .ok (failureThreshold, recoveryThreshold)) {prior : Option CurrentHttpHealth}
    {attempt : HttpCheckAttempt} {transitionId : String} {decision : HttpHealthDecision}
    (h : decideHttpHealth prior attempt transitionId input = .ok decision) :
    Moves failureThreshold recoveryThreshold (phaseOf prior) attempt.successful (phaseOf (some decision.current))
    decision.kind := by
  rw [decide_eq ht] at h
  cases hs : attempt.successful with
  | false =>
    rw [hs] at h
    cases h
    exact failureDecision_moves prior attempt transitionId failureThreshold recoveryThreshold
  | true =>
    rw [hs] at h
    cases h
    exact successDecision_moves prior attempt transitionId failureThreshold recoveryThreshold

/-! ## Runs -/

theorem observe_eq_ok {check' : Check} :
    observe input check o = .ok check' ↔ ∃ decision, decideHttpHealth check.current o.attempt o.transitionId input =
    .ok decision ∧
      check' = ⟨some decision.current, check.emitted ++ decision.transition.toList⟩ := by
  unfold observe
  rw [except_bind_eq_ok]
  refine exists_congr fun decision => and_congr_right fun _ => ?_
  exact ⟨fun h => by cases h; rfl, fun h => by rw [h]; rfl⟩

theorem observeAll_snoc (observations : List Observation) (o : Observation) :
    observeAll input (observations ++ [o]) = observeAll input observations >>= fun check => observe input check o := by
  unfold observeAll
  rw [List.foldlM_append]
  refine congrArg _ (funext fun check => ?_)
  exact bind_pure _

theorem thresholds_of_observe {check' : Check} (h : observe input check o = .ok check') :
    ∃ failureThreshold recoveryThreshold, thresholds input = .ok (failureThreshold, recoveryThreshold) := by
  obtain ⟨decision, h, -⟩ := (observe_eq_ok).mp h
  obtain ⟨⟨f, r⟩, ht, -⟩ := except_bind_eq_ok.mp h
  exact ⟨f, r, ht⟩

theorem kinds_snoc (check : Check) (decision : HttpHealthDecision) :
    (Check.mk (some decision.current) (check.emitted ++ decision.transition.toList)).kinds = check.kinds ++
    decision.kind.toList := by
  cases h : decision.transition <;> simp [Check.kinds, HttpHealthDecision.kind, h]

/-! ## The counts are streaks -/

theorem streak_snoc (successful : Bool) (observations : List Observation) (o : Observation) :
    streak successful (observations ++ [o]) = if o.attempt.successful = successful then streak successful observations + 1
    else 0 := by
  unfold streak
  rw [List.reverse_append, List.reverse_singleton, List.singleton_append, List.takeWhile_cons]
  by_cases h : o.attempt.successful = successful
  · simp [h]
  · simp [h]

theorem streak_nonneg (successful : Bool) (observations : List Observation) : 0 ≤ streak successful observations :=
  Int.natCast_nonneg _

structure Counts (failureThreshold recoveryThreshold : Int) (observations : List Observation) (p : Phase) : Prop where
  failures : p.failures = streak false observations
  healthy : p.state = .healthy → p.failures = 0
  successes : p.state ≠ .healthy → p.successes = streak true observations ∧ p.successes < recoveryThreshold
  below : p.state ≠ .failed → p.failures < failureThreshold
  /-- Until its first success a failed check holds the failures that failed it. -/
  failing : p.state = .failed → p.successes = 0 → failureThreshold ≤ p.failures

theorem counts_init (ht : thresholds input = .ok (failureThreshold, recoveryThreshold)) :
    Counts failureThreshold recoveryThreshold [] (phaseOf none) := by
  obtain ⟨hf, -⟩ := thresholds_pos ht
  exact ⟨rfl, fun _ => rfl, fun h => absurd rfl h, fun _ => hf, (fun h => nomatch h)⟩

theorem counts_step {p' : Phase} {kind : Option HealthAlertKind} (hf : 0 < failureThreshold) (hr : 0 < recoveryThreshold)
    (hc : Counts failureThreshold recoveryThreshold observations p)
    (hm : Moves failureThreshold recoveryThreshold p o.attempt.successful p' kind) :
    Counts failureThreshold recoveryThreshold (observations ++ [o]) p' := by
  have hfailures := hc.failures
  have hnonneg := streak_nonneg true observations
  have hfalse := streak_snoc false observations o
  have htrue := streak_snoc true observations o
  cases hs : o.attempt.successful with
  | false =>
    rw [hs] at hm hfalse htrue
    rw [if_pos rfl] at hfalse
    rw [if_neg Bool.false_ne_true] at htrue
    cases hm with
    | degrade hlt =>
      exact ⟨by simp only; omega, (fun h => nomatch h), fun _ => ⟨htrue.symm, hr⟩, fun _ => hlt, (fun h => nomatch h)⟩
    | fail hge hne =>
      exact ⟨by simp only; omega, (fun h => nomatch h), fun _ => ⟨htrue.symm, hr⟩, fun h => absurd rfl h, fun _ _ => hge⟩
    | stayFailed hge heq =>
      exact ⟨by simp only; omega, (fun h => nomatch h), fun _ => ⟨htrue.symm, hr⟩, fun h => absurd rfl h, fun _ _ => hge⟩
  | true =>
    rw [hs] at hm hfalse htrue
    rw [if_neg (by decide)] at hfalse
    rw [if_pos rfl] at htrue
    cases hm with
    | stayHealthy heq => exact ⟨hfalse.symm, fun _ => rfl, fun h => absurd rfl h, fun _ => hf, (fun h => nomatch h)⟩
    | wait hne hlt =>
      obtain ⟨hcount, -⟩ := hc.successes hne
      refine ⟨hfalse.symm, fun _ => rfl, fun _ => ⟨by simp only; omega, hlt⟩, fun _ => hf, fun _ hzero => ?_⟩
      simp only at hzero
      omega
    | recover heq hge => exact ⟨hfalse.symm, fun _ => rfl, fun h => absurd rfl h, fun _ => hf, (fun h => nomatch h)⟩
    | settle heq hge => exact ⟨hfalse.symm, fun _ => rfl, fun h => absurd rfl h, fun _ => hf, (fun h => nomatch h)⟩

theorem counts_run (ht : thresholds input = .ok (failureThreshold, recoveryThreshold))
    (h : observeAll input observations = .ok check) :
    Counts failureThreshold recoveryThreshold observations (phaseOf check.current) := by
  induction observations using List.reverseRecOn generalizing check with
  | nil =>
    cases h
    exact counts_init ht
  | append_singleton observations o ih =>
    rw [observeAll_snoc] at h
    obtain ⟨before, hbefore, hstep⟩ := except_bind_eq_ok.mp h
    obtain ⟨decision, hdecide, rfl⟩ := (observe_eq_ok).mp hstep
    obtain ⟨hf, hr⟩ := thresholds_pos ht
    exact counts_step hf hr (ih hbefore) (decide_moves ht hdecide)

/-- What is emitted is emitted at its threshold, in every run. -/
theorem emits_at_threshold (earlier : List Observation) (o : Observation) : EmitsAtThreshold input earlier o := by
  intro failureThreshold recoveryThreshold check decision transition ht hrun hdecide htransition
  have hc := counts_run ht hrun
  have hm := decide_moves ht hdecide
  have hkind : decision.kind = some transition.kind := by rw [HttpHealthDecision.kind, htransition]; rfl
  rw [hkind] at hm
  rw [streak_snoc, streak_snoc]
  generalize hs : o.attempt.successful = s at hm
  generalize hk : some transition.kind = k at hm
  generalize phaseOf (some decision.current) = p' at hm
  cases hm with
  | fail hge hne =>
    have hbelow := hc.below hne
    have hcount := hc.failures
    refine .inl ⟨Option.some.inj hk, ?_⟩
    simp
    omega
  | recover heq hge =>
    obtain ⟨hcount, hlt⟩ := hc.successes (by rw [heq]; simp)
    refine .inr ⟨Option.some.inj hk, ?_⟩
    simp
    omega
  | degrade hlt => cases hk
  | stayFailed hge heq => cases hk
  | stayHealthy heq => cases hk
  | wait hne hlt => cases hk
  | settle heq hge => cases hk

/-! ## Alternation -/

theorem alternates_nil : Alternates [] := by
  intro i kind h
  cases h

theorem alternates_snoc {kind : HealthAlertKind} (h : Alternates kinds)
    (hkind : kind = if kinds.length % 2 = 0 then .failedCheck else .recovery) : Alternates (kinds ++ [kind]) := by
  intro i k hi
  by_cases hlt : i < kinds.length
  · rw [List.getElem?_append_left hlt] at hi
    exact h i k hi
  · have hle : kinds.length ≤ i := Nat.not_lt.mp hlt
    rw [List.getElem?_append_right hle, List.getElem?_singleton] at hi
    split at hi
    · next hz =>
      have heq : i = kinds.length := by omega
      cases hi
      rw [heq]
      exact hkind
    · cases hi

/-- Of alternating kinds, an even number leaves none open. -/
theorem closed_of_even (h : Alternates kinds) (heven : kinds.length % 2 = 0) : Closed kinds := by
  intro i hi
  have hlt : i < kinds.length := (List.getElem?_eq_some_iff.mp hi).1
  have hpar : i % 2 = 0 := by
    by_contra hodd
    have hkind := h i _ hi
    rw [if_neg hodd] at hkind
    cases hkind
  have hnext : i + 1 < kinds.length := by omega
  refine ⟨i + 1, Nat.lt_succ_self i, ?_⟩
  have hget : kinds[i + 1]? = some kinds[i + 1] := List.getElem?_eq_getElem hnext
  have hkind := h (i + 1) _ hget
  have hodd : ¬ (i + 1) % 2 = 0 := by omega
  rw [if_neg hodd] at hkind
  rw [hget, hkind]

/-- The alerts alternate, and one is open exactly while the check is failed. -/
structure Standing (kinds : List HealthAlertKind) (p : Phase) : Prop where
  alternate : Alternates kinds
  opened : kinds.length % 2 = 1 ↔ p.state = .failed

theorem standing_init : Standing [] (phaseOf none) :=
  ⟨alternates_nil, ⟨(fun h => nomatch h), (fun h => nomatch h)⟩⟩

theorem standing_step {p' : Phase} {successful : Bool} {kind : Option HealthAlertKind} (h : Standing kinds p)
    (hm : Moves failureThreshold recoveryThreshold p successful p' kind)
    (hkept : ¬ (successful = false ∧ p.state = .failed ∧ p.failures + 1 < failureThreshold)) :
    Standing (kinds ++ kind.toList) p' := by
  have hopened := h.opened
  cases hm with
  | degrade hlt =>
    have hne : p.state ≠ .failed := fun heq => hkept ⟨rfl, heq, hlt⟩
    simp only [Option.toList_none, List.append_nil]
    exact ⟨h.alternate, by simp [hopened, hne]⟩
  | fail hge hne =>
    have heven : kinds.length % 2 = 0 := by
      by_contra hodd
      exact hne (hopened.mp (by omega))
    refine ⟨alternates_snoc h.alternate (by rw [if_pos heven]), ?_⟩
    simp
    omega
  | stayFailed hge heq =>
    simp only [Option.toList_none, List.append_nil]
    exact ⟨h.alternate, by simp [hopened, heq]⟩
  | stayHealthy heq =>
    simp only [Option.toList_none, List.append_nil]
    exact ⟨h.alternate, by simp [hopened, heq]⟩
  | wait hne hlt =>
    simp only [Option.toList_none, List.append_nil]
    exact ⟨h.alternate, hopened⟩
  | recover heq hge =>
    have hodd : kinds.length % 2 = 1 := hopened.mpr heq
    refine ⟨alternates_snoc h.alternate (by rw [if_neg (by omega)]), ?_⟩
    simp
    omega
  | settle heq hge =>
    simp only [Option.toList_none, List.append_nil]
    exact ⟨h.alternate, by simp [hopened, heq]⟩

theorem forgets_iff {prior : Option CurrentHttpHealth} {attempt : HttpCheckAttempt} :
    Forgets failureThreshold prior attempt ↔
      attempt.successful = false ∧ (phaseOf prior).state = .failed ∧ (phaseOf prior).failures + 1 < failureThreshold := by
  cases prior with
  | none => simp [Forgets, phaseOf]
  | some current => simp [Forgets]

theorem steady_of_snoc (h : Steady input (observations ++ [o])) : Steady input observations := by
  intro earlier o' later f r check heq
  exact h earlier o' (later ++ [o]) f r check (by rw [heq]; simp)

theorem standing_run (h : observeAll input observations = .ok check) (hsteady : Steady input observations) :
    Standing check.kinds (phaseOf check.current) := by
  induction observations using List.reverseRecOn generalizing check with
  | nil =>
    cases h
    exact standing_init
  | append_singleton observations o ih =>
    rw [observeAll_snoc] at h
    obtain ⟨before, hbefore, hstep⟩ := except_bind_eq_ok.mp h
    obtain ⟨f, r, ht⟩ := thresholds_of_observe hstep
    obtain ⟨decision, hdecide, rfl⟩ := (observe_eq_ok).mp hstep
    have hkept := hsteady observations o [] f r before rfl ht hbefore
    rw [forgets_iff] at hkept
    rw [kinds_snoc]
    exact standing_step (ih hbefore (steady_of_snoc hsteady)) (decide_moves ht hdecide) hkept

theorem state_phaseOf (h : check.state = some .healthy) : (phaseOf check.current).state = .healthy := by
  obtain ⟨current, emitted⟩ := check
  cases current with
  | none => rfl
  | some current => exact Option.some.inj h

theorem alerts_of_steady (h : observeAll input observations = .ok check) (hsteady : Steady input observations) :
    Alerts input observations check := by
  have hs := standing_run h hsteady
  refine ⟨hs.alternate, fun earlier o _ _ => emits_at_threshold earlier o, fun hhealthy => ?_⟩
  refine closed_of_even hs.alternate ?_
  by_contra hodd
  have hfailed := hs.opened.mp (by omega)
  rw [state_phaseOf hhealthy] at hfailed
  cases hfailed

/-! ## The runs that forget -/

theorem nothing_emitted (h : observeAll input observations = .ok check) (hnone : check.current = none) : check.kinds = [] := by
  rcases List.eq_nil_or_concat observations with rfl | ⟨earlier, o, rfl⟩
  · cases h
    rfl
  · rw [List.concat_eq_append, observeAll_snoc] at h
    obtain ⟨before, -, hstep⟩ := except_bind_eq_ok.mp h
    obtain ⟨decision, -, rfl⟩ := (observe_eq_ok).mp hstep
    cases hnone

theorem steady_of_one (hone : failureThreshold = 1 ∨ recoveryThreshold = 1)
    (ht : thresholds input = .ok (failureThreshold, recoveryThreshold)) (observations : List Observation) :
    Steady input observations := by
  intro earlier o later f r check _ ht' hrun
  rw [ht] at ht'
  cases ht'
  have hc := counts_run ht hrun
  rw [forgets_iff]
  intro ⟨_, hfailed, hlt⟩
  rcases hone with h | h
  · have hcount := hc.failures
    have hnonneg := streak_nonneg false earlier
    omega
  · obtain ⟨hcount, hbelow⟩ := hc.successes (by rw [hfailed]; simp)
    have hnonneg := streak_nonneg true earlier
    have hfailing := hc.failing hfailed (by omega)
    omega

/-- A run that leaves a check in this phase, with these kinds emitted. -/
def Leads (input : Input) (observations : List Observation) (p : Phase) (kinds : List HealthAlertKind) : Prop :=
  ∃ check, observeAll input observations = .ok check ∧ phaseOf check.current = p ∧ check.kinds = kinds

theorem Leads.snoc {observations : List Observation} {p : Phase} {kinds : List HealthAlertKind}
    (h : Leads input observations p kinds) (ht : thresholds input = .ok (failureThreshold, recoveryThreshold)) (o : Observation) :
    ∃ p' kind, Moves failureThreshold recoveryThreshold p o.attempt.successful p' kind ∧
      Leads input (observations ++ [o]) p' (kinds ++ kind.toList) := by
  obtain ⟨check, hrun, rfl, rfl⟩ := h
  have hdecide := decide_eq ht check.current o.attempt o.transitionId
  refine ⟨_, _, decide_moves ht hdecide, ?_⟩
  refine ⟨_, ?_, rfl, kinds_snoc check _⟩
  rw [observeAll_snoc, hrun]
  exact (observe_eq_ok).mpr ⟨_, hdecide, rfl⟩

/-- An attempt of no particular time. -/
def attempted (successful : Bool) : Observation := ⟨⟨successful, 0, 0, none, if successful then .ok else .networkError⟩, ""⟩

section
variable (ht : thresholds input = .ok (failureThreshold, recoveryThreshold))
include ht

theorem leads_failures (n : Nat) :
    ∃ p kinds, Leads input (List.replicate n (attempted false)) p kinds ∧ p.failures = n ∧ (0 < n → p.successes = 0) ∧
      (n < failureThreshold → p.state ≠ .failed ∧ kinds = []) ∧
      (failureThreshold ≤ n → p.state = .failed ∧ kinds = [.failedCheck]) := by
  obtain ⟨hf, -⟩ := thresholds_pos ht
  induction n with
  | zero => exact ⟨phaseOf none, [], ⟨_, rfl, rfl, rfl⟩, rfl, fun h => absurd h (Nat.lt_irrefl 0),
    fun _ => ⟨by simp [phaseOf], rfl⟩, by omega⟩
  | succ n ih =>
    obtain ⟨p, kinds, hleads, hcount, -, hlow, hhigh⟩ := ih
    obtain ⟨p', kind, hm, hleads'⟩ := hleads.snoc ht (attempted false)
    rw [← List.replicate_succ'] at hleads'
    refine ⟨p', _, hleads', ?_⟩
    generalize hs : (attempted false).attempt.successful = s at hm
    cases hm with
    | degrade hlt =>
      have hlow := hlow (by omega)
      refine ⟨by simp [hcount], fun _ => rfl, fun _ => ⟨by simp, by simp [hlow.2]⟩, by omega⟩
    | fail hge hne =>
      have hkinds : kinds = [] := by
        by_cases hlt : (n : Int) < failureThreshold
        · exact (hlow hlt).2
        · exact absurd (hhigh (by omega)).1 hne
      refine ⟨by simp [hcount], fun _ => rfl, by omega, fun _ => ⟨rfl, by rw [hkinds]; rfl⟩⟩
    | stayFailed hge heq =>
      have hkinds : kinds = [.failedCheck] := by
        by_cases hlt : (n : Int) < failureThreshold
        · exact absurd heq (hlow hlt).1
        · exact (hhigh (by omega)).2
      refine ⟨by simp [hcount], fun _ => rfl, by omega, fun _ => ⟨rfl, by rw [hkinds]; rfl⟩⟩
    | stayHealthy heq => cases hs
    | wait hne hlt => cases hs
    | recover heq hge => cases hs
    | settle heq hge => cases hs

/-- A degraded check that has not yet succeeded recovers in silence. -/
theorem leads_successes (h : Leads input observations p kinds) (hstate : p.state = .degraded) (hzero : p.successes = 0)
    (n : Nat) (hn : n ≤ recoveryThreshold) :
    ∃ p', Leads input (observations ++ List.replicate n (attempted true)) p' kinds ∧ p'.successes = n ∧
      p'.state = if (n : Int) < recoveryThreshold then .degraded else .healthy := by
  obtain ⟨-, hr⟩ := thresholds_pos ht
  induction n with
  | zero => exact ⟨p, by simpa using h, hzero, hstate.trans (if_pos hr).symm⟩
  | succ n ih =>
    obtain ⟨p₁, hleads, hcount, hstate₁⟩ := ih (by omega)
    rw [if_pos (by omega)] at hstate₁
    obtain ⟨p', kind, hm, hleads'⟩ := hleads.snoc ht (attempted true)
    rw [List.append_assoc, ← List.replicate_succ'] at hleads'
    refine ⟨p', ?_⟩
    generalize hs : (attempted true).attempt.successful = s at hm
    cases hm with
    | degrade hlt => cases hs
    | fail hge hne => cases hs
    | stayFailed hge heq => cases hs
    | stayHealthy heq => exact absurd (hstate₁.symm.trans heq) (by simp)
    | wait hne hlt =>
      refine ⟨by simpa using hleads', by simp [hcount], ?_⟩
      rw [if_pos (by omega)]
      exact hstate₁
    | recover heq hge => exact absurd (hstate₁.symm.trans heq) (by simp)
    | settle heq hge =>
      refine ⟨by simpa using hleads', by simp [hcount], ?_⟩
      rw [if_neg (by omega)]

/-- With both thresholds above one: an outage, one success, one failure, and a recovery. -/
theorem leads_forgotten (hf : failureThreshold ≠ 1) (hr : recoveryThreshold ≠ 1) :
    ∃ observations p, Leads input observations p [.failedCheck] ∧ p.state = .healthy := by
  obtain ⟨hfpos, hrpos⟩ := thresholds_pos ht
  obtain ⟨p, kinds, hleads, -, hzero, -, hhigh⟩ := leads_failures ht failureThreshold.toNat
  obtain ⟨hfailed, rfl⟩ := hhigh (by omega)
  have hsuccesses := hzero (by omega)
  obtain ⟨p₁, kind₁, hm₁, hleads₁⟩ := hleads.snoc ht (attempted true)
  generalize hs₁ : (attempted true).attempt.successful = s₁ at hm₁
  have hnext : p₁ = ⟨.failed, 0, 1⟩ ∧ kind₁ = none := by
    cases hm₁ with
    | degrade hlt => cases hs₁
    | fail hge hne => cases hs₁
    | stayFailed hge heq => cases hs₁
    | stayHealthy heq => exact absurd (hfailed.symm.trans heq) (by simp)
    | wait hne hlt => exact ⟨by rw [hfailed, hsuccesses]; rfl, rfl⟩
    | recover heq hge => omega
    | settle heq hge => exact absurd (hfailed.symm.trans heq) (by simp)
  obtain ⟨rfl, rfl⟩ := hnext
  obtain ⟨p₂, kind₂, hm₂, hleads₂⟩ := hleads₁.snoc ht (attempted false)
  generalize hs₂ : (attempted false).attempt.successful = s₂ at hm₂
  have hforgot : p₂ = ⟨.degraded, 1, 0⟩ ∧ kind₂ = none := by
    cases hm₂ with
    | degrade hlt => exact ⟨rfl, rfl⟩
    | fail hge hne => exact absurd rfl hne
    | stayFailed hge heq =>
      simp only at hge
      omega
    | stayHealthy heq => cases hs₂
    | wait hne hlt => cases hs₂
    | recover heq hge => cases hs₂
    | settle heq hge => cases hs₂
  obtain ⟨rfl, rfl⟩ := hforgot
  obtain ⟨p₃, hleads₃, -, hstate⟩ := leads_successes ht hleads₂ rfl rfl recoveryThreshold.toNat (by omega)
  rw [if_neg (by omega)] at hstate
  exact ⟨_, p₃, hleads₃, hstate⟩

end

theorem not_closed_failedCheck : ¬ Closed [.failedCheck] := by
  intro h
  obtain ⟨j, hlt, hget⟩ := h 0 rfl
  have hlt' : j < 1 := (List.getElem?_eq_some_iff.mp hget).1
  omega

/-- In every run that never finds a failed check with a failure count it forgets, the alerts
    alternate, come at their thresholds, and are closed when the check is healthy. Every run is
    such a run exactly when a threshold is one. -/
theorem alerts_alternate (input : Input) :
    (∀ observations check, observeAll input observations = .ok check → Steady input observations →
      Alerts input observations check) ∧
    ∀ failureThreshold recoveryThreshold, thresholds input = .ok (failureThreshold, recoveryThreshold) →
      ((∀ observations check, observeAll input observations = .ok check → Alerts input observations check) ↔
        failureThreshold = 1 ∨ recoveryThreshold = 1) := by
  refine ⟨fun observations check h hsteady => alerts_of_steady h hsteady, fun f r ht => ⟨fun h => ?_, fun h => ?_⟩⟩
  · by_contra hnot
    obtain ⟨hf, hr⟩ := not_or.mp hnot
    obtain ⟨observations, p, ⟨check, hrun, rfl, hkinds⟩, hstate⟩ := leads_forgotten ht hf hr
    have halerts := h observations check hrun
    have hhealthy : check.state = some .healthy := by
      cases hcurrent : check.current with
      | none => cases hkinds.symm.trans (nothing_emitted hrun hcurrent)
      | some current =>
        rw [hcurrent] at hstate
        rw [Check.state, hcurrent, ← hstate]
        rfl
    exact not_closed_failedCheck (hkinds ▸ halerts.closed hhealthy)
  · exact fun observations check hrun => alerts_of_steady hrun (steady_of_one h ht observations)

/-- Three failures, a success, a failure and two successes, at the default thresholds. -/
def flapping : List Observation :=
  [attempted false, attempted false, attempted false, attempted true, attempted false, attempted true, attempted true]

theorem an_open_alert_is_forgotten :
    (∃ check, observeAll ⟨none, none⟩ flapping = .ok check ∧ check.state = some .healthy ∧ ¬ Closed check.kinds) ∧
    ∃ check, observeAll ⟨none, none⟩ (flapping.take 5 ++ [attempted false, attempted false]) = .ok check ∧
      ¬ Alternates check.kinds := by
  refine ⟨⟨_, rfl, rfl, ?_⟩, ⟨_, rfl, ?_⟩⟩
  · exact not_closed_failedCheck
  · intro h
    exact absurd (h 1 .failedCheck rfl) (by decide)

end Fabrika.Operations.Health
