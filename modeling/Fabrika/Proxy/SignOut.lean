/-
  Fabrika.Proxy.SignOut — sign-outs among session requests that one Authorizer handles (authorize.ts:
  authorizeSession and signOut).

  Actors. A session request runs on its own until it awaits: the verification of a cached token, IAM's
  mint, or the verification of the minted token (`Phase`). Between two awaits nothing else runs. IAM
  mints at some moment (`mints`), and the answer reaches the request later (`answers`). A sign-out runs
  at once. Other requests, sessions and apps run in between, and the cache may forget an entry.

  A token is stamped with the number of sign-outs its session and app had when IAM minted it, a request
  with their number when it started (`World.signOuts` counts them by cache key).

  Proved: `authorizeSession` of `Fabrika.Proxy.Authorize` is these phases run in one piece
  (`authorizeSession_eq`); and while no sign-out meets a minted token that is not yet cached, a request
  started behind a sign-out is answered only with a token minted behind it (`signed_out`). A mint in
  flight stores its token behind the sign-out: `a_mint_in_flight_outlives_the_sign_out`.
-/

import Mathlib.Logic.Function.Basic
import Fabrika.Proxy.Authorize

namespace Fabrika.Proxy.SignOut

open Fabrika.Lib Fabrika.AuthCore

/-! ## A session request between its awaits -/

structure Stamped (α : Type) where
  value : α
  /-- The sign-outs before the mint. -/
  minted : Nat
  deriving DecidableEq

inductive Phase
  | verifyingCached (cached : Stamped CachedToken)
  | minting
  | verifyingMinted (minted : Stamped CachedToken)
  deriving DecidableEq

/-- What a request does with its cache entry before it awaits again or ends. -/
inductive Write
  | keep
  | delete
  | set (value : Stamped CachedToken)
  deriving DecidableEq

inductive Turn
  | awaits (phase : Phase)
  | ends (attempt : SessionAttempt) (minted : Nat)

/-- Up to the first await: a cached token not near its expiry is verified, else one is minted. -/
def begins (cached : Option (Stamped CachedToken)) (seconds : Int) : Phase :=
  match cached with
  | some cached => if cached.value.expiresAt - seconds > tokenRefreshSkewSeconds then .verifyingCached cached else .minting
  | none => .minting

def cachedVerified (cached : Stamped CachedToken) : VerifyResult → Write × Turn
  | .unavailable => (.keep, .ends .unavailable cached.minted)
  | .invalid => (.delete, .awaits .minting)
  | .verified claims =>
    if claims.ptype = some .user then (.keep, .ends (.accepted cached.value.token claims) cached.minted)
    else (.delete, .awaits .minting)

def mintAnswered (minted : Nat) : MintResult → Turn
  | .refused reason => .ends (if reason = .tokenTooLarge then .refused reason else .miss reason) minted
  | .minted token expiresAt => .awaits (.verifyingMinted ⟨⟨token, expiresAt⟩, minted⟩)

def mintVerified (minted : Stamped CachedToken) : VerifyResult → Write × Turn
  | .unavailable => (.keep, .ends .unavailable minted.minted)
  | .invalid => (.keep, .ends (.miss .invalidSession) minted.minted)
  | .verified claims =>
    if claims.ptype ≠ some .user then (.keep, .ends (.miss .invalidSession) minted.minted)
    else (.set minted, .ends (.accepted minted.value.token claims) minted.minted)

/-! ## The phases in one piece are `authorizeSession` -/

section Alone

variable (services : Services) (app : ProxyApp) (session requestId : String)

def Write.tell (key : String) : Write → Program Unit
  | .keep => pure ()
  | .delete => Logged.tell (.cacheDelete key)
  | .set value => Logged.tell (.cacheSet key value.value)

/-- From the answer of the mint on. -/
def afterMint : Turn → Program SessionAttempt
  | .ends attempt _ => return attempt
  | .awaits (.verifyingMinted minted) => do
    let answer ← verify services minted.value.token (.app (audienceOf app))
    let (write, turn) := mintVerified minted answer
    write.tell (cacheKey app.id .session session)
    match turn with
    | .ends attempt _ => return attempt
    | .awaits _ => return .unavailable
  | .awaits _ => return .unavailable

def fromMint : Program SessionAttempt := do
  let answer ← callIam (Logged.ask (services.mintToken · (audienceOf app) session requestId)
    (.mintToken (audienceOf app) session requestId))
  afterMint services app session (mintAnswered 0 answer)

def fromPhase : Phase → Program SessionAttempt
  | .verifyingCached cached => do
    let answer ← verify services cached.value.token (.app (audienceOf app))
    let (write, turn) := cachedVerified cached answer
    write.tell (cacheKey app.id .session session)
    match turn with
    | .ends attempt _ => return attempt
    | .awaits _ => fromMint services app session requestId
  | .minting => fromMint services app session requestId
  | .verifyingMinted minted => afterMint services app session (.awaits (.verifyingMinted minted))

end Alone

variable {services : Services} {app : ProxyApp} {session requestId : String}

theorem fromMint_eq : fromMint services app session requestId = mintFromSession services app session requestId := by
  unfold fromMint mintFromSession
  congr 1
  funext answer
  cases answer with
  | refused reason => rfl
  | minted token expiresAt =>
    simp only [mintAnswered, afterMint]
    congr 1
    funext answer
    cases answer with
    | unavailable => rfl
    | invalid => rfl
    | verified claims =>
      simp only [mintVerified]
      split
      · rfl
      · rfl

theorem authorizeSession_eq (request : ForwardedRequest) :
    authorizeSession services app request = (do
      let seconds ← now services
      match readCookie (request.headers "Cookie") sessionCookie with
      | none => return .miss .noSession
      | some session =>
        let cached ← cacheGet services (cacheKey app.id .session session)
        fromPhase services app session request.requestId (begins (cached.map fun cached => ⟨cached, 0⟩) seconds)) := by
  unfold authorizeSession
  congr 1
  funext seconds
  cases readCookie (request.headers "Cookie") sessionCookie with
  | none => rfl
  | some session =>
    dsimp only
    congr 1
    funext cached
    cases cached with
    | none => exact (fromMint_eq).symm
    | some cached =>
      simp only [Option.map_some, begins]
      split
      · simp only [fromPhase]
        congr 1
        funext answer
        cases answer with
        | unavailable => rfl
        | invalid =>
          simp only [cachedVerified, fromMint_eq]
          rfl
        | verified claims =>
          simp only [cachedVerified]
          split
          · rfl
          · simp only [fromMint_eq]
            rfl
      · exact (fromMint_eq).symm

/-! ## Sign-outs -/

inductive SignOutReason
  | noEndpoint
  | crossSite
  | badRedirect
  deriving DecidableEq

inductive SignOutDecision
  | deny (status : Nat) (reason : SignOutReason)
  | signout (location : String)
  deriving DecidableEq

/-- What the runtime's `URL` makes of a request and an app: the target of the request's `redirect` on the app's own
    origin, and IAM's release page with the app and a target. -/
structure Urls where
  sameOriginTarget : ProxyApp → ForwardedRequest → Option String
  release : ProxyApp → String → String

/-- The cache key it deletes, and its decision. -/
def signOut (urls : Urls) (app : ProxyApp) (request : ForwardedRequest) : Option String × SignOutDecision :=
  if request.method ≠ "GET" then (none, .deny 403 .noEndpoint)
  else if request.headers "Sec-Fetch-Site" ≠ some "same-origin" then (none, .deny 403 .crossSite)
  else match urls.sameOriginTarget app request with
    | none => (none, .deny 400 .badRedirect)
    | some target =>
      ((readCookie (request.headers "Cookie") sessionCookie).map (cacheKey app.id .session), .signout (urls.release app target))

/-! ## Runs -/

/-- What a request waits for: an await of its own, or IAM's answer that is on its way. -/
inductive Waits
  | phase (phase : Phase)
  | answer (minted : Nat) (answer : MintResult)
  deriving DecidableEq

structure Running where
  key : String
  /-- The sign-outs before it started. -/
  started : Nat
  waits : Waits
  deriving DecidableEq

/-- A request answered with a token. -/
structure Answered where
  key : String
  started : Nat
  minted : Nat
  deriving DecidableEq

structure World where
  cache : String → Option (Stamped CachedToken)
  requests : Nat → Option Running
  signOuts : String → Nat
  answered : List Answered

def World.start : World := ⟨fun _ => none, fun _ => none, fun _ => 0, []⟩

inductive Event
  /-- A session request starts under a fresh name. -/
  | starts (r : Nat) (app : ProxyApp) (request : ForwardedRequest) (seconds : Int)
  | mints (r : Nat) (answer : MintResult)
  | answers (r : Nat)
  | verifies (r : Nat) (answer : VerifyResult)
  /-- The awaited call throws. -/
  | throws (r : Nat)
  | signOut (app : ProxyApp) (request : ForwardedRequest)
  | evicts (key : String)

section Step

variable (caching : Bool) (urls : Urls)

def World.write (w : World) (key : String) : Write → World
  | .keep => w
  | .delete => { w with cache := Function.update w.cache key none }
  | .set value => if caching then { w with cache := Function.update w.cache key (some value) } else w

def World.turn (w : World) (r : Nat) (running : Running) : Turn → World
  | .awaits phase => { w with requests := Function.update w.requests r (some { running with waits := .phase phase }) }
  | .ends (.accepted _ _) minted =>
    { w with requests := Function.update w.requests r none, answered := w.answered ++ [⟨running.key, running.started, minted⟩] }
  | .ends _ _ => { w with requests := Function.update w.requests r none }

def World.step (w : World) : Event → World
  | .starts r app request seconds =>
    match w.requests r, readCookie (request.headers "Cookie") sessionCookie with
    | none, some session =>
      let key := cacheKey app.id .session session
      { w with requests := Function.update w.requests r (some ⟨key, w.signOuts key, .phase (begins (w.cache key) seconds)⟩) }
    | _, _ => w
  | .mints r answer =>
    match w.requests r with
    | some ⟨key, started, .phase .minting⟩ =>
      { w with requests := Function.update w.requests r (some ⟨key, started, .answer (w.signOuts key) answer⟩) }
    | _ => w
  | .answers r =>
    match w.requests r with
    | some ⟨key, started, .answer minted answer⟩ => w.turn r ⟨key, started, .answer minted answer⟩ (mintAnswered minted answer)
    | _ => w
  | .verifies r answer =>
    match w.requests r with
    | some ⟨key, started, .phase (.verifyingCached cached)⟩ =>
      let next := cachedVerified cached answer
      (w.write caching key next.1).turn r ⟨key, started, .phase (.verifyingCached cached)⟩ next.2
    | some ⟨key, started, .phase (.verifyingMinted minted)⟩ =>
      let next := mintVerified minted answer
      (w.write caching key next.1).turn r ⟨key, started, .phase (.verifyingMinted minted)⟩ next.2
    | _ => w
  | .throws r => { w with requests := Function.update w.requests r none }
  | .signOut app request =>
    match (signOut urls app request).1 with
    | some key =>
      { w with cache := Function.update w.cache key none, signOuts := Function.update w.signOuts key (w.signOuts key + 1) }
    | none => w
  | .evicts key => { w with cache := Function.update w.cache key none }

def World.after (w : World) (events : List Event) : World := events.foldl (World.step caching urls) w

/-- The token IAM minted for a request that has not stored or dropped it yet. -/
def Running.inFlight (running : Running) : Bool :=
  match running.waits with
  | .answer _ (.minted _ _) => true
  | .phase (.verifyingMinted _) => true
  | _ => false

/-- A sign-out meets no minted token of its session and app in flight. -/
def Meets (w : World) : Event → Prop
  | .signOut app request => caching = true → ∀ key, (signOut urls app request).1 = some key →
      ∀ r running, w.requests r = some running → running.key = key → running.inFlight = false
  | _ => True

def MeetsAll (w : World) : List Event → Prop
  | [] => True
  | event :: rest => Meets caching urls w event ∧ MeetsAll (w.step caching urls event) rest

/-! ## What is cached was minted behind the last sign-out -/

/-- What a request holds of the sign-outs: a cached token it verifies is not from before its start, one minted for it
    neither, and it may still be stored. -/
structure Fresh (signOuts : String → Nat) (running : Running) : Prop where
  started : running.started ≤ signOuts running.key
  cached : ∀ cached, running.waits = .phase (.verifyingCached cached) → running.started ≤ cached.minted
  answer : ∀ minted token expiresAt, running.waits = .answer minted (.minted token expiresAt) →
    running.started ≤ minted ∧ (caching = true → minted = signOuts running.key)
  minted : ∀ minted, running.waits = .phase (.verifyingMinted minted) →
    running.started ≤ minted.minted ∧ (caching = true → minted.minted = signOuts running.key)

structure Inv (w : World) : Prop where
  cache : ∀ key value, w.cache key = some value → caching = true ∧ value.minted = w.signOuts key
  requests : ∀ r running, w.requests r = some running → Fresh caching w.signOuts running
  answered : ∀ answered ∈ w.answered, answered.started ≤ answered.minted

end Step

variable {caching : Bool} {urls : Urls} {w : World} {event : Event}

theorem inv_start : Inv caching .start :=
  ⟨(fun _ _ h => nomatch h), (fun _ _ h => nomatch h), (fun _ h => nomatch h)⟩

theorem Inv.setRequest (h : Inv caching w) (r : Nat) {running : Running} (hfresh : Fresh caching w.signOuts running) :
    Inv caching { w with requests := Function.update w.requests r (some running) } := by
  refine ⟨h.cache, fun r' running' hr' => ?_, h.answered⟩
  by_cases hr : r' = r
  · subst hr
    dsimp only at hr'
    rw [Function.update_self] at hr'
    cases hr'
    exact hfresh
  · dsimp only at hr'
    rw [Function.update_of_ne hr] at hr'
    exact h.requests r' running' hr'

theorem Inv.dropRequest (h : Inv caching w) (r : Nat) : Inv caching { w with requests := Function.update w.requests r none } := by
  refine ⟨h.cache, fun r' running' hr' => ?_, h.answered⟩
  by_cases hr : r' = r
  · subst hr
    dsimp only at hr'
    rw [Function.update_self] at hr'
    cases hr'
  · dsimp only at hr'
    rw [Function.update_of_ne hr] at hr'
    exact h.requests r' running' hr'

theorem Inv.forget (h : Inv caching w) (key : String) : Inv caching { w with cache := Function.update w.cache key none } := by
  refine ⟨fun key' value hvalue => ?_, h.requests, h.answered⟩
  by_cases hk : key' = key
  · subst hk
    dsimp only at hvalue
    rw [Function.update_self] at hvalue
    cases hvalue
  · dsimp only at hvalue
    rw [Function.update_of_ne hk] at hvalue
    exact h.cache key' value hvalue

theorem Inv.write (h : Inv caching w) (key : String) (write : Write)
    (hset : ∀ value, write = .set value → caching = true → value.minted = w.signOuts key) :
    Inv caching (w.write caching key write) := by
  cases write with
  | keep => exact h
  | delete => exact h.forget key
  | set value =>
    simp only [World.write]
    split
    · next hcaching =>
      refine ⟨fun key' value' hvalue => ?_, h.requests, h.answered⟩
      by_cases hk : key' = key
      · subst hk
        dsimp only at hvalue
        rw [Function.update_self] at hvalue
        cases hvalue
        exact ⟨hcaching, hset value rfl hcaching⟩
      · dsimp only at hvalue
        rw [Function.update_of_ne hk] at hvalue
        exact h.cache key' value' hvalue
    · exact h

theorem write_signOuts (key : String) (write : Write) : (w.write caching key write).signOuts = w.signOuts := by
  cases write with
  | keep => rfl
  | delete => rfl
  | set value =>
    simp only [World.write]
    split
    · rfl
    · rfl

/-- A request that goes on, or ends with a token not older than its start. -/
theorem Inv.turn (h : Inv caching w) (r : Nat) {running : Running} {turn : Turn}
    (hstarted : running.started ≤ w.signOuts running.key)
    (hawaits : ∀ phase, turn = .awaits phase → phase = .minting ∨
      ∃ minted, phase = .verifyingMinted minted ∧ running.started ≤ minted.minted ∧
      (caching = true → minted.minted = w.signOuts running.key))
    (hends : ∀ token claims minted, turn = .ends (.accepted token claims) minted → running.started ≤ minted) :
    Inv caching (w.turn r running turn) := by
  cases turn with
  | awaits phase =>
    refine h.setRequest r ⟨hstarted, ?_, ?_, ?_⟩
    · intro cached hcached
      rcases hawaits phase rfl with rfl | ⟨minted, rfl, -⟩
      · cases hcached
      · cases hcached
    · intro minted token expiresAt hanswer
      cases hanswer
    · intro minted hminted
      rcases hawaits phase rfl with rfl | ⟨minted', rfl, hfresh⟩
      · cases hminted
      · cases hminted
        exact hfresh
  | ends attempt minted =>
    have hdrop := h.dropRequest r
    cases attempt with
    | accepted token claims =>
      refine ⟨hdrop.cache, hdrop.requests, fun answered hanswered => ?_⟩
      rcases List.mem_append.mp hanswered with hold | hnew
      · exact h.answered answered hold
      · obtain rfl := List.mem_singleton.mp hnew
        exact hends token claims minted rfl
    | miss reason => exact hdrop
    | refused reason => exact hdrop
    | unavailable => exact hdrop

theorem inv_step (h : Inv caching w) (hmeets : Meets caching urls w event) : Inv caching (w.step caching urls event) := by
  cases event with
  | starts r app request seconds =>
    simp only [World.step]
    split
    · next session _ _ =>
      refine h.setRequest r ⟨le_rfl, ?_, ?_, ?_⟩
      · intro cached hcached
        have hread : w.cache (cacheKey app.id .session session) = some cached := by
          cases hcache : w.cache (cacheKey app.id .session session) with
          | none => simp [begins, hcache] at hcached
          | some value =>
            simp only [begins, hcache] at hcached
            split at hcached
            · cases hcached
              rfl
            · cases hcached
        exact (h.cache _ _ hread).2.ge
      · intro minted token expiresAt hanswer
        cases hanswer
      · intro minted hminted
        simp only [begins] at hminted
        split at hminted
        · split at hminted
          · cases hminted
          · cases hminted
        · cases hminted
    · exact h
  | mints r answer =>
    simp only [World.step]
    split
    · next key started hr =>
      have hfresh := h.requests r _ hr
      refine h.setRequest r ⟨hfresh.started, ?_, ?_, ?_⟩
      · intro cached hcached
        cases hcached
      · intro minted token expiresAt hanswer
        cases hanswer
        exact ⟨hfresh.started, fun _ => rfl⟩
      · intro minted hminted
        cases hminted
    · exact h
  | answers r =>
    simp only [World.step]
    split
    · next key started minted answer hr =>
      have hfresh := h.requests r _ hr
      refine h.turn r hfresh.started ?_ ?_
      · intro phase hphase
        cases answer with
        | refused reason => cases hphase
        | minted token expiresAt =>
          cases hphase
          exact .inr ⟨_, rfl, hfresh.answer _ _ _ rfl⟩
      · intro token claims minted' hends
        cases answer with
        | refused reason =>
          simp only [mintAnswered] at hends
          split at hends
          · cases hends
          · cases hends
        | minted token expiresAt => cases hends
    · exact h
  | verifies r answer =>
    simp only [World.step]
    split
    · next key started cached hr =>
      have hfresh := h.requests r _ hr
      have hwrite := h.write key (cachedVerified cached answer).1 (by
        intro value hset
        cases answer with
        | unavailable => cases hset
        | invalid => cases hset
        | verified claims =>
          simp only [cachedVerified] at hset
          split at hset
          · cases hset
          · cases hset)
      refine hwrite.turn r (by rw [write_signOuts]; exact hfresh.started) ?_ ?_
      · intro phase hphase
        left
        cases answer with
        | unavailable => cases hphase
        | invalid =>
          cases hphase
          rfl
        | verified claims =>
          simp only [cachedVerified] at hphase
          split at hphase
          · cases hphase
          · cases hphase
            rfl
      · intro token claims minted hends
        cases answer with
        | unavailable => cases hends
        | invalid => cases hends
        | verified claims' =>
          simp only [cachedVerified] at hends
          split at hends
          · cases hends
            exact hfresh.cached cached rfl
          · cases hends
    · next key started minted hr =>
      have hfresh := h.requests r _ hr
      obtain ⟨hstarted, hcurrent⟩ := hfresh.minted minted rfl
      have hwrite := h.write key (mintVerified minted answer).1 (by
        intro value hset
        cases answer with
        | unavailable => cases hset
        | invalid => cases hset
        | verified claims =>
          simp only [mintVerified] at hset
          split at hset
          · cases hset
          · cases hset
            exact hcurrent)
      refine hwrite.turn r (by rw [write_signOuts]; exact hfresh.started) ?_ ?_
      · intro phase hphase
        cases answer with
        | unavailable => cases hphase
        | invalid => cases hphase
        | verified claims =>
          simp only [mintVerified] at hphase
          split at hphase
          · cases hphase
          · cases hphase
      · intro token claims minted' hends
        cases answer with
        | unavailable => cases hends
        | invalid => cases hends
        | verified claims' =>
          simp only [mintVerified] at hends
          split at hends
          · cases hends
          · cases hends
            exact hstarted
    · exact h
  | throws r => exact h.dropRequest r
  | signOut app request =>
    simp only [World.step]
    split
    · next key hkey =>
      have hforget := h.forget key
      have hgrown : ∀ key', w.signOuts key' ≤ Function.update w.signOuts key (w.signOuts key + 1) key' := by
        intro key'
        by_cases hk : key' = key
        · subst hk
          rw [Function.update_self]
          omega
        · rw [Function.update_of_ne hk]
      refine ⟨fun key' value hvalue => ?_, fun r running hr => ?_, h.answered⟩
      · by_cases hk : key' = key
        · subst hk
          dsimp only at hvalue
          rw [Function.update_self] at hvalue
          cases hvalue
        · obtain ⟨hcaching, hminted⟩ := hforget.cache key' value hvalue
          refine ⟨hcaching, ?_⟩
          show value.minted = Function.update w.signOuts key _ key'
          rw [Function.update_of_ne hk]
          exact hminted
      · have hfresh := h.requests r running hr
        -- A token that may still be stored belongs to a session and app that is not signed out now.
        have hkept : running.inFlight = true → caching = true →
            Function.update w.signOuts key (w.signOuts key + 1) running.key = w.signOuts running.key := by
          intro hflight hcaching
          refine Function.update_of_ne (fun hk => ?_) _ _
          have := hmeets hcaching key hkey r running hr hk
          rw [hflight] at this
          cases this
        refine ⟨hfresh.started.trans (hgrown _), hfresh.cached, ?_, ?_⟩
        · intro minted token expiresAt hanswer
          obtain ⟨hstarted, hcurrent⟩ := hfresh.answer minted token expiresAt hanswer
          refine ⟨hstarted, fun hcaching => ?_⟩
          exact (hcurrent hcaching).trans (hkept (by simp [Running.inFlight, hanswer]) hcaching).symm
        · intro minted hminted
          obtain ⟨hstarted, hcurrent⟩ := hfresh.minted minted hminted
          refine ⟨hstarted, fun hcaching => ?_⟩
          exact (hcurrent hcaching).trans (hkept (by simp [Running.inFlight, hminted]) hcaching).symm
    · exact h
  | evicts key => exact h.forget key

theorem inv_after (h : Inv caching w) (events : List Event) (hmeets : MeetsAll caching urls w events) :
    Inv caching (w.after caching urls events) := by
  induction events generalizing w with
  | nil => exact h
  | cons event rest ih => exact ih (inv_step h hmeets.1) hmeets.2

/-- A request started behind a sign-out is answered with no token minted before it. -/
theorem signed_out (caching : Bool) (urls : Urls) (events : List Event) (hmeets : MeetsAll caching urls .start events) :
    ∀ answered ∈ (World.start.after caching urls events).answered, answered.started ≤ answered.minted :=
  (inv_after inv_start events hmeets).answered

/-! ## A sign-out while a mint is under way -/

def deskApp : ProxyApp := ⟨"desk@prod", "https", false, none, [], []⟩

def deskClaims : AccessTokenClaims := ⟨"https://iam", "desk@prod", "p1", 0, 300, [], some .user, none, none⟩

def deskRequest : ForwardedRequest where
  method := "GET"
  url := "https://desk.example/"
  host := "desk.example"
  rawPath := "/"
  headers name :=
    if name = "Cookie" then some "__Host-px_session=s" else if name = "Sec-Fetch-Site" then some "same-origin" else none
  requestId := "r1"

def deskUrls : Urls :=
  ⟨fun _ _ => some "/", fun app target => "https://iam/release?app=" ++ audienceOf app ++ "&redirect=" ++ target⟩

/-- The token of a finished request is dropped: the next request is answered with one minted behind the sign-out. -/
theorem a_sign_out_is_minted_behind :
    (World.start.after true deskUrls [.starts 0 deskApp deskRequest 0, .mints 0 (.minted "old" 300), .answers 0,
        .verifies 0 (.verified deskClaims), .signOut deskApp deskRequest, .starts 1 deskApp deskRequest 1,
        .mints 1 (.minted "new" 301), .answers 1, .verifies 1 (.verified deskClaims)]).answered =
        [⟨cacheKey "desk@prod" .session "s", 0, 0⟩, ⟨cacheKey "desk@prod" .session "s", 1, 1⟩] ∧
      ∀ answered ∈ (World.start.after true deskUrls [.starts 0 deskApp deskRequest 0, .mints 0 (.minted "old" 300), .answers 0,
        .verifies 0 (.verified deskClaims), .signOut deskApp deskRequest, .starts 1 deskApp deskRequest 1,
        .mints 1 (.minted "new" 301),
        .answers 1, .verifies 1 (.verified deskClaims)]).answered, answered.started ≤ answered.minted := by
  refine ⟨by decide, signed_out true deskUrls _ ?_⟩
  simp only [MeetsAll, Meets, true_and, and_true]
  intro _ key _ r running hr _
  rcases r with _ | r
  · have hended : (World.start.after true deskUrls [.starts 0 deskApp deskRequest 0, .mints 0 (.minted "old" 300), .answers 0,
        .verifies 0 (.verified deskClaims)]).requests 0 = none := by
      decide
    exact nomatch hended.symm.trans hr
  · cases hr

/-- The mint answered before the sign-out is stored behind it, and the next request gets the old token. -/
theorem a_mint_in_flight_outlives_the_sign_out : ¬∀ caching urls events,
    ∀ answered ∈ (World.start.after caching urls events).answered, answered.started ≤ answered.minted := by
  intro h
  have hstale :=
    h true deskUrls [.starts 0 deskApp deskRequest 0, .mints 0 (.minted "old" 300), .answers 0, .signOut deskApp deskRequest,
    .verifies 0 (.verified deskClaims), .starts 1 deskApp deskRequest 1, .verifies 1 (.verified deskClaims)]
    ⟨cacheKey "desk@prod" .session "s", 1, 0⟩ (by decide)
  cases hstale

end Fabrika.Proxy.SignOut
