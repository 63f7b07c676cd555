/-
  Fabrika.Operations.Health — the state of a health check over its attempts (operations
  health.ts `decideHttpHealth`).

  One attempt at a time is folded into the check's current state, and may answer a transition
  to alert of. Times and latencies are carried through and never compared here.
-/

import Mathlib

namespace Fabrika.Operations.Health

def DEFAULT_FAILURE_THRESHOLD : Int := 3

def DEFAULT_RECOVERY_THRESHOLD : Int := 2

/-- `HealthState` without the two a reader adds to it, `stale` and `unavailable`. -/
inductive HealthState
  | healthy
  | degraded
  | failed
  deriving DecidableEq

inductive HealthAlertKind
  | failedCheck
  | recovery
  | unhealthyTelemetry
  deriving DecidableEq

inductive HttpCheckDetailCode
  | ok
  | unexpectedStatus
  | redirect
  | timeout
  | cancelled
  | networkError
  deriving DecidableEq

structure HttpCheckAttempt where
  successful : Bool
  observedAt : Int
  latencyMs : Int
  status : Option Int
  detailCode : HttpCheckDetailCode
  deriving DecidableEq

structure CurrentHttpHealth where
  state : HealthState
  observedAt : Int
  latencyMs : Option Int
  detailCode : HttpCheckDetailCode
  consecutiveFailures : Int
  consecutiveSuccesses : Int
  transitionId : Option String
  deriving DecidableEq

/-- A `HealthTransition` as it is decided, before it is told whose it is. -/
structure HealthTransition where
  id : String
  kind : HealthAlertKind
  from_ : Option HealthState
  to_ : HealthState
  at_ : Int
  deriving DecidableEq

structure HttpHealthDecision where
  current : CurrentHttpHealth
  transition : Option HealthTransition
  deriving DecidableEq

structure Input where
  failureThreshold : Option Int
  recoveryThreshold : Option Int
  deriving DecidableEq

/-! ## decideHttpHealth -/

def maxSafeInteger : Int := 2 ^ 53 - 1

def positiveInteger (value : Int) (label : String) : Except String Int :=
  if value < -maxSafeInteger ∨ maxSafeInteger < value ∨ value ≤ 0 then .error (label ++ " must be a positive integer")
  else .ok value

def thresholds (input : Input) : Except String (Int × Int) := do
  let failureThreshold ← positiveInteger (input.failureThreshold.getD DEFAULT_FAILURE_THRESHOLD) "failure threshold"
  let recoveryThreshold ← positiveInteger (input.recoveryThreshold.getD DEFAULT_RECOVERY_THRESHOLD) "recovery threshold"
  return (failureThreshold, recoveryThreshold)

/-- Where the attempt is not successful. -/
def failureDecision (prior : Option CurrentHttpHealth) (attempt : HttpCheckAttempt) (transitionId : String)
    (failureThreshold : Int) : HttpHealthDecision :=
  let consecutiveFailures := (prior.map (·.consecutiveFailures)).getD 0 + 1
  let state : HealthState := if consecutiveFailures ≥ failureThreshold then .failed else .degraded
  let transition : Option HealthTransition :=
    if state = .failed ∧ prior.map (·.state) ≠ some .failed then
      some ⟨transitionId, .failedCheck, prior.map (·.state), state, attempt.observedAt⟩
    else none
  ⟨⟨state, attempt.observedAt, some attempt.latencyMs, attempt.detailCode, consecutiveFailures, 0,
    (transition.map (·.id)).or (prior.bind (·.transitionId))⟩, transition⟩

/-- Where the attempt is successful. -/
def successDecision (prior : Option CurrentHttpHealth) (attempt : HttpCheckAttempt) (transitionId : String)
    (recoveryThreshold : Int) : HttpHealthDecision :=
  let recovering := prior.filter (·.state ≠ .healthy)
  let consecutiveSuccesses := (recovering.map (·.consecutiveSuccesses + 1)).getD recoveryThreshold
  let state : HealthState :=
    match recovering with
    | none => .healthy
    | some prior =>
      if consecutiveSuccesses < recoveryThreshold then if prior.state = .failed then .failed else .degraded else .healthy
  let transition : Option HealthTransition :=
    if state = .healthy ∧ prior.map (·.state) = some .failed then
      some ⟨transitionId, .recovery, prior.map (·.state), state, attempt.observedAt⟩
    else none
  ⟨⟨state, attempt.observedAt, some attempt.latencyMs, attempt.detailCode, 0, consecutiveSuccesses,
    (transition.map (·.id)).or (prior.bind (·.transitionId))⟩, transition⟩

def decideHttpHealth (prior : Option CurrentHttpHealth) (attempt : HttpCheckAttempt) (transitionId : String) (input : Input) :
    Except String HttpHealthDecision := do
  let (failureThreshold, recoveryThreshold) ← thresholds input
  if !attempt.successful then return failureDecision prior attempt transitionId failureThreshold
  return successDecision prior attempt transitionId recoveryThreshold

/-! ## A check and its attempts -/

/-- The state of a check and the transitions it has emitted, oldest first. -/
structure Check where
  current : Option CurrentHttpHealth
  emitted : List HealthTransition
  deriving DecidableEq

/-- An attempt, and the id for the transition it may emit. -/
structure Observation where
  attempt : HttpCheckAttempt
  transitionId : String
  deriving DecidableEq

def observe (input : Input) (check : Check) (o : Observation) : Except String Check := do
  let decision ← decideHttpHealth check.current o.attempt o.transitionId input
  return ⟨some decision.current, check.emitted ++ decision.transition.toList⟩

/-- A check's attempts folded from no prior state. -/
def observeAll (input : Input) (observations : List Observation) : Except String Check :=
  observations.foldlM (observe input) ⟨none, []⟩

def Check.state (check : Check) : Option HealthState := check.current.map (·.state)

def Check.kinds (check : Check) : List HealthAlertKind := check.emitted.map (·.kind)

/-- How many of the last attempts came out one way, without a break. -/
def streak (successful : Bool) (observations : List Observation) : Int :=
  (observations.reverse.takeWhile (·.attempt.successful = successful)).length

/-! ## What the alerts are for -/

/-- `failed_check`, `recovery`, `failed_check`, and so on. -/
def Alternates (kinds : List HealthAlertKind) : Prop :=
  ∀ i kind, kinds[i]? = some kind → kind = if i % 2 = 0 then .failedCheck else .recovery

/-- Each `failed_check` has a `recovery` after it. -/
def Closed (kinds : List HealthAlertKind) : Prop :=
  ∀ i : Nat, kinds[i]? = some .failedCheck → ∃ j, i < j ∧ kinds[j]? = some .recovery

/-- What one attempt emits comes with the last of as many in a row as its threshold asks for. -/
def EmitsAtThreshold (input : Input) (earlier : List Observation) (o : Observation) : Prop :=
  ∀ failureThreshold recoveryThreshold check decision transition,
    thresholds input = .ok (failureThreshold, recoveryThreshold) → observeAll input earlier = .ok check →
    decideHttpHealth check.current o.attempt o.transitionId input = .ok decision → decision.transition = some transition →
      (transition.kind = .failedCheck ∧ streak false (earlier ++ [o]) = failureThreshold) ∨
      (transition.kind = .recovery ∧ streak true (earlier ++ [o]) = recoveryThreshold)

/-- The alerts of a check after these attempts. -/
structure Alerts (input : Input) (observations : List Observation) (check : Check) : Prop where
  alternate : Alternates check.kinds
  atThreshold : ∀ earlier o later, observations = earlier ++ o :: later → EmitsAtThreshold input earlier o
  closed : check.state = some .healthy → Closed check.kinds

/-- A failure after a success while the check is failed counts from one again: below the
    threshold it leaves the check degraded, and its open alert forgotten. -/
def Forgets (failureThreshold : Int) (prior : Option CurrentHttpHealth) (attempt : HttpCheckAttempt) : Prop :=
  attempt.successful = false ∧ ∃ current, prior = some current ∧ current.state = .failed ∧
    current.consecutiveFailures + 1 < failureThreshold

/-- No attempt of the run finds the check in a state it forgets. -/
def Steady (input : Input) (observations : List Observation) : Prop :=
  ∀ earlier o later failureThreshold recoveryThreshold check, observations = earlier ++ o :: later →
    thresholds input = .ok (failureThreshold, recoveryThreshold) → observeAll input earlier = .ok check →
    ¬ Forgets failureThreshold check.current o.attempt

end Fabrika.Operations.Health
