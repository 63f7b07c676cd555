/-
  Fabrika.Proxy.Cache — cache.ts: the bounded in-memory token cache, and sequences of requests decided with a
  cache and without one.

  A cache is a service of `Fabrika.Proxy.Authorize` that answers from the calls logged so far: `MemoryTokenCache`
  replays them, and no cache at all answers nothing. `Faithful` is all that a decision needs of one: it answers an
  entry only under the key it was set under.

  `Iam` is what IAM and its key set make of credentials and tokens, and `Answers` says that services answer so at
  one time: a mint is always refused or always a token with the same claims up to `iat` and `exp`, a fresh token
  verifies, and within its lifetime a token verifies as itself or (a rotated key) not at all. A delegation is
  decided by the claims of a token that has not expired; of an expired one nothing is asked.
-/

import Fabrika.Proxy.Authorize

namespace Fabrika.Proxy

open Fabrika.Lib Fabrika.AuthCore Fabrika.AuthCore.Endpoints

/-! ## The memory cache -/

def sizeOf (key : String) (value : CachedToken) : Nat := key.length + value.token.length

/-- Entries in the order they were set, oldest first. -/
structure MemoryTokenCache where
  maxEntries : Nat
  maxBytes : Nat
  entries : List (String × CachedToken)
  bytes : Nat
  deriving DecidableEq

namespace MemoryTokenCache

def empty (maxEntries maxBytes : Nat) : MemoryTokenCache := ⟨maxEntries, maxBytes, [], 0⟩

def get (cache : MemoryTokenCache) (key : String) : Option CachedToken := cache.entries.lookup key

def delete (cache : MemoryTokenCache) (key : String) : MemoryTokenCache :=
  match cache.get key with
  | none => cache
  | some held => { cache with entries := cache.entries.filter (·.1 ≠ key), bytes := cache.bytes - sizeOf key held }

/-- The oldest entries go until both bounds hold. -/
def evict (maxEntries maxBytes : Nat) : List (String × CachedToken) → Nat → List (String × CachedToken) × Nat
  | [], bytes => ([], bytes)
  | (key, value) :: rest, bytes =>
    if rest.length + 1 > maxEntries || bytes > maxBytes then evict maxEntries maxBytes rest (bytes - sizeOf key value)
    else ((key, value) :: rest, bytes)

def set (cache : MemoryTokenCache) (key : String) (value : CachedToken) : MemoryTokenCache :=
  let cache := cache.delete key
  if sizeOf key value > cache.maxBytes then cache
  else
    let kept := evict cache.maxEntries cache.maxBytes (cache.entries ++ [(key, value)]) (cache.bytes + sizeOf key value)
    { cache with entries := kept.1, bytes := kept.2 }

/-- What a logged call makes of the cache. -/
def apply (cache : MemoryTokenCache) : Call → MemoryTokenCache
  | .cacheSet key value => cache.set key value
  | .cacheDelete key => cache.delete key
  | _ => cache

def replay (maxEntries maxBytes : Nat) (log : List Call) : MemoryTokenCache := log.foldl apply (empty maxEntries maxBytes)

/-! ### What is read was set -/

variable {cache : MemoryTokenCache} {key : String} {value : CachedToken}

variable {entry : String × CachedToken}

theorem mem_delete (h : entry ∈ (cache.delete key).entries) : entry ∈ cache.entries := by
  unfold delete at h
  split at h
  · exact h
  · exact (List.mem_filter.mp h).1

theorem mem_evict {maxEntries maxBytes : Nat} {entries : List (String × CachedToken)} {bytes : Nat}
    (h : entry ∈ (evict maxEntries maxBytes entries bytes).1) : entry ∈ entries := by
  induction entries generalizing bytes with
  | nil => cases h
  | cons head rest ih =>
    unfold evict at h
    split at h
    · exact List.mem_cons_of_mem _ (ih h)
    · exact h

theorem mem_set (h : entry ∈ (cache.set key value).entries) : entry ∈ cache.entries ∨ entry = (key, value) := by
  simp only [set] at h
  split at h
  · exact .inl (mem_delete h)
  · rcases List.mem_append.mp (mem_evict h) with hold | hnew
    · exact .inl (mem_delete hold)
    · exact .inr (List.mem_singleton.mp hnew)

theorem mem_replay {maxEntries maxBytes : Nat} (log : List Call) (entry : String × CachedToken)
    (h : entry ∈ (replay maxEntries maxBytes log).entries) : Call.cacheSet entry.1 entry.2 ∈ log := by
  induction log using List.reverseRecOn with
  | nil => cases h
  | append_singleton log call ih =>
    have hlast : replay maxEntries maxBytes (log ++ [call]) = (replay maxEntries maxBytes log).apply call := by
      simp [replay]
    rw [hlast] at h
    have hold : entry ∈ (replay maxEntries maxBytes log).entries → Call.cacheSet entry.1 entry.2 ∈ log ++ [call] :=
      fun hmem => List.mem_append_left _ (ih hmem)
    cases call with
    | cacheSet key value =>
      rcases mem_set h with hmem | rfl
      · exact hold hmem
      · exact List.mem_append_right _ (List.mem_singleton.mpr rfl)
    | cacheDelete key => exact hold (mem_delete h)
    | cacheGet key answer => exact hold h
    | now seconds => exact hold h
    | mintToken app session requestId answer => exact hold h
    | mintFromKey app key requestId answer => exact hold h
    | requestDelegation app credential requestId endpoint grant => exact hold h
    | verify token audience answer => exact hold h
    | handoff attempt => exact hold h

end MemoryTokenCache

/-- The cache answers, and an entry only under the key it was set under. -/
def Faithful (services : Services) : Prop :=
  ∀ log key, ∃ answer, services.cacheGet log key = .ok answer ∧ ∀ value, answer = some value → Call.cacheSet key value ∈ log

def Services.withMemory (services : Services) (maxEntries maxBytes : Nat) : Services :=
  { services with cacheGet := fun log key => .ok ((MemoryTokenCache.replay maxEntries maxBytes log).get key) }

/-- `cache = null`. -/
def Services.uncached (services : Services) : Services := { services with cacheGet := fun _ _ => .ok none }

theorem memory_faithful (services : Services) (maxEntries maxBytes : Nat) :
    Faithful (services.withMemory maxEntries maxBytes) := by
  intro log key
  refine ⟨_, rfl, fun value hvalue => ?_⟩
  obtain ⟨before, after, hentries, -⟩ := List.lookup_eq_some_iff.mp hvalue
  exact MemoryTokenCache.mem_replay log (key, value) (by rw [hentries]; simp)

/-! ## IAM and its key set -/

/-- The claims without their times. -/
def timeless (claims : AccessTokenClaims) : AccessTokenClaims := { claims with iat := 0, exp := 0 }

/-- What every mint for one audience and credential answers. -/
inductive Mint
  | refused (reason : DenyReason)
  | token (claims : AccessTokenClaims)
  deriving DecidableEq

structure Iam where
  mint : CredentialKind → String → String → Mint
  /-- The token was minted for the audience, with the claims, at a time and until one. -/
  Issued : String → String → AccessTokenClaims → Int → Int → Prop
  /-- How a resource token that a client presents verifies at a time. -/
  bearer : Int → String → TokenAudience → VerifyResult
  /-- Whether a caller with the claims is granted a delegation; `none` where no issuer is configured. -/
  grants : Option (Int → String → AccessTokenClaims → String → Bool)

variable (iam : Iam)

/-- The token stands for the claims at the time: IAM minted it with them and it has not expired, or a client's
    resource token verifies so. -/
def Iam.Presents (time : Int) (token : String) (claims : AccessTokenClaims) : Prop :=
  (∃ audience minted issuedAt expiresAt, iam.Issued token audience minted issuedAt expiresAt ∧ issuedAt ≤ time ∧
    time < expiresAt ∧
    timeless minted = timeless claims) ∨ ∃ app resource, iam.bearer time token (.resource app resource) = .verified claims

def Mints (time : Int) (audience : String) (answer : Except Failure MintResult) : Mint → Prop
  | .refused reason => answer = .ok (.refused reason)
  | .token claims =>
    ∃ token expiresAt, answer = .ok (.minted token expiresAt) ∧ iam.Issued token audience claims time expiresAt ∧ time < expiresAt

/-- The services answer at `time` what IAM and its key set do. -/
structure Answers (time : Int) (services : Services) : Prop where
  clock : ∀ log, services.now log = .ok time
  session : ∀ log audience session requestId,
    Mints iam time audience (services.mintToken log audience session requestId) (iam.mint .session audience session)
  key : ∀ log audience key requestId,
    Mints iam time audience (services.mintFromKey log audience key requestId) (iam.mint .key audience key)
  fresh : ∀ log token audience minted expiresAt, iam.Issued token audience minted time expiresAt →
    ∃ claims, services.verify log token (.app audience) = .ok (.verified claims) ∧ timeless claims = timeless minted
  kept : ∀ log token audience minted issuedAt expiresAt, iam.Issued token audience minted issuedAt expiresAt → issuedAt ≤ time →
    time < expiresAt → services.verify log token (.app audience) = .ok .invalid ∨
      ∃ claims, services.verify log token (.app audience) = .ok (.verified claims) ∧ timeless claims = timeless minted
  bearer : ∀ log token app resource,
    services.verify log token (.resource app resource) = .ok (iam.bearer time token (.resource app resource))
  reachable : ∀ token app resource, iam.bearer time token (.resource app resource) ≠ .unavailable
  unissued : services.requestDelegation = none ↔ iam.grants = none
  delegation : ∀ issuer grants, services.requestDelegation = some issuer → iam.grants = some grants →
    ∀ log app token requestId endpoint claims, iam.Presents time token claims →
      ∃ grant, issuer log app token requestId endpoint = .ok grant ∧
        ((∃ text, grant = some text ∧ text ≠ "") ↔ grants time app (timeless claims) endpoint = true)
  handoff : ∀ log, ∃ attempt, services.createHandoffAttempt log = .ok attempt

/-! ## Sequences of requests -/

/-- A request, when it comes, and the services of the authorizer with a cache and of the one without. -/
structure Arrival where
  app : ProxyApp
  table : CompiledEndpointTable ManifestEndpointRow
  request : ForwardedRequest
  time : Int
  cached : Services
  uncached : Services

/-- Decide the requests one by one, each with the log of all calls before it. -/
def authorizeAll (services : Arrival → Services) : List Arrival → List Call → List Decision × List Call
  | [], log => ([], log)
  | arrival :: rest, log =>
    let decided := authorize (services arrival) arrival.app arrival.table arrival.request log
    let later := authorizeAll services rest decided.2
    (decided.1 :: later.1, later.2)

/-- What a caller sees of a decision: everything but the token, the grant and the login attempt made for it. -/
inductive Seen
  | allow (subject : Option String) (endpoint : String) (crossOrigin : Option String) (forwardsAuthorization : Bool)
  | deny (denial : Denial)
  | preflight (allowOrigin : String) (method : EndpointMethod)
  | login (status : Nat) (reason : DenyReason)
  deriving DecidableEq

def Decision.seen : Decision → Seen
  | .allow allowance => .allow allowance.subject allowance.endpoint allowance.crossOrigin allowance.forwardsAuthorization
  | .deny denial => .deny denial
  | .preflight allowOrigin method => .preflight allowOrigin method
  | .login status _ reason _ => .login status reason

end Fabrika.Proxy
