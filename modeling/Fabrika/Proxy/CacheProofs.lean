/-
  Fabrika.Proxy.CacheProofs — a token cache changes no decision (see `Fabrika.Proxy.Cache`).

  Everything ever set in the cache was minted for the app and the credential its key names (`Stored`), and a key
  names one app, one kind and one credential (`cacheKey_inj`). So whatever the cache answers, an exchange comes out
  as IAM's mint for that audience and credential does (`exchangeKey_yields`, `authorizeSession_yields`); the rest
  of the decision reads the claims without their times, and two authorizers agree on it step by step.
-/

import Fabrika.Lib.Agree
import Fabrika.Proxy.AuthorizeProofs
import Fabrika.Proxy.Cache

namespace Fabrika.Proxy

open Fabrika.Lib Fabrika.Lib.Logged Fabrika.AuthCore Fabrika.AuthCore.Endpoints

/-! ## Keys and credentials -/

def nul : Char := '\x00'

theorem kind_nul (kind : CredentialKind) : nul ∉ kind.text.toList := by
  cases kind with
  | session => decide
  | key => decide

theorem cacheKey_toList (app : String) (kind : CredentialKind) (credential : String) :
    (cacheKey app kind credential).toList = (app.toList ++ nul :: kind.text.toList) ++ nul :: credential.toList := by
  simp [cacheKey, nul]

variable {credential audience token : String} {kind : CredentialKind} {c : Char} {log : List Call}

/-- A key names one app, one kind and one credential: no credential holds a NUL. -/
theorem cacheKey_inj {app app' : String} {kind' : CredentialKind} {credential' : String} (hcredential : nul ∉ credential.toList)
    (hcredential' : nul ∉ credential'.toList) (h : cacheKey app kind credential = cacheKey app' kind' credential') :
    app = app' ∧ kind = kind' ∧ credential = credential' := by
  have hlist := congrArg String.toList h
  rw [cacheKey_toList, cacheKey_toList] at hlist
  obtain ⟨hfront, hcred⟩ := Text.cut_last_inj hlist hcredential hcredential'
  obtain ⟨happ, hkind⟩ := Text.cut_last_inj hfront (kind_nul kind) (kind_nul kind')
  refine ⟨String.toList_inj.mp happ, ?_, String.toList_inj.mp hcred⟩
  cases kind with
  | session => cases kind' with
    | session => rfl
    | key => exact absurd hkind (by decide)
  | key => cases kind' with
    | session => exact absurd hkind (by decide)
    | key => rfl

variable {bearer : String} {claims : AccessTokenClaims} {expiresAt : Int}

theorem readCookieParts_mem {name value : String} {parts : List String} (h : readCookieParts name parts = some value)
    (hc : c ∈ value.toList) : ∃ part ∈ parts, c ∈ part.toList := by
  induction parts with
  | nil => cases h
  | cons part rest ih =>
    unfold readCookieParts at h
    split at h
    · obtain ⟨part', hpart', hmem⟩ := ih h
      exact ⟨part', List.mem_cons_of_mem _ hpart', hmem⟩
    · next before after hcut =>
      split at h
      · dsimp only at h
        split at h
        · cases h
        · cases h
          rw [String.toList_ofList] at hc
          refine ⟨part, List.mem_cons_self, ?_⟩
          rw [Text.cut_eq_some hcut]
          exact List.mem_append_right _ (List.mem_cons_of_mem _ (Text.mem_of_mem_trimChars hc))
      · obtain ⟨part', hpart', hmem⟩ := ih h
        exact ⟨part', List.mem_cons_of_mem _ hpart', hmem⟩

theorem readCookie_mem {header : Option String} {name value : String} (h : readCookie header name = some value)
    (hc : c ∈ value.toList) : ∃ text, header = some text ∧ c ∈ text.toList := by
  cases header with
  | none => cases h
  | some text =>
    simp only [readCookie, Option.bind_some] at h
    split at h
    · cases h
    · obtain ⟨part, hpart, hmem⟩ := readCookieParts_mem h hc
      exact ⟨text, rfl, (Text.infix_of_mem_split hpart).subset hmem⟩

theorem readBearer_mem {header : String} (h : readBearer header = some bearer) (hc : c ∈ bearer.toList) :
    c ∈ header.toList := by
  simp only [readBearer] at h
  split at h
  · split at h
    · cases h
    · cases h
      rw [String.toList_ofList] at hc
      have hdrop := (List.dropWhile_sublist Text.isSpace).subset (Text.mem_of_mem_trimChars hc)
      exact Text.mem_of_mem_trimChars (List.mem_of_mem_drop hdrop)
  · cases h

/-- No value of a `Headers` holds a NUL. -/
def WellFormed (request : ForwardedRequest) : Prop := ∀ name value, request.headers name = some value → nul ∉ value.toList

/-! ## What the cache holds -/

section Yields

variable {iam : Iam} {apps : List ProxyApp} {time : Int} {services : Services}

/-- Everything ever set was minted for the app and the credential its key names, and only that was read. -/
structure Stored (iam : Iam) (apps : List ProxyApp) (time : Int) (log : List Call) : Prop where
  sets : ∀ key value, Call.cacheSet key value ∈ log → ∃ app ∈ apps, ∃ kind credential claims issuedAt,
    nul ∉ credential.toList ∧ key = cacheKey app.id kind credential ∧ iam.mint kind (audienceOf app) credential = .token claims ∧
      iam.Issued value.token (audienceOf app) claims issuedAt value.expiresAt ∧ issuedAt ≤ time
  gets : ∀ key value, Call.cacheGet key (some value) ∈ log → Call.cacheSet key value ∈ log

theorem Stored.mono {later : Int} (h : Stored iam apps time log) (hle : time ≤ later) : Stored iam apps later log := by
  refine ⟨fun key value hmem => ?_, h.gets⟩
  obtain ⟨app, happ, kind, credential, claims, issuedAt, hnul, hkey, hmint, hissued, hat⟩ := h.sets key value hmem
  exact ⟨app, happ, kind, credential, claims, issuedAt, hnul, hkey, hmint, hissued, hat.trans hle⟩

/-- A call that sets nothing, and reads only what was set. -/
theorem Stored.call {log : List Call} {call : Call} (h : Stored iam apps time log)
    (hset : ∀ key value, call ≠ .cacheSet key value)
    (hget : ∀ key value, call = .cacheGet key (some value) → Call.cacheSet key value ∈ log) :
    Stored iam apps time (log ++ [call]) := by
  refine ⟨fun key value hmem => ?_, fun key value hmem => ?_⟩
  · rcases List.mem_append.mp hmem with hmem | hmem
    · exact h.sets key value hmem
    · exact absurd (List.mem_singleton.mp hmem).symm (hset key value)
  · rcases List.mem_append.mp hmem with hmem | hmem
    · exact List.mem_append_left _ (h.gets key value hmem)
    · exact List.mem_append_left _ (hget key value (List.mem_singleton.mp hmem).symm)

theorem Stored.set {app : ProxyApp} (h : Stored iam apps time log) (happ : app ∈ apps) (hnul : nul ∉ credential.toList)
    (hmint : iam.mint kind (audienceOf app) credential = .token claims)
    (hissued : iam.Issued token (audienceOf app) claims time expiresAt) :
    Stored iam apps time (log ++ [.cacheSet (cacheKey app.id kind credential) ⟨token, expiresAt⟩]) := by
  refine ⟨fun key value hmem => ?_, fun key value hmem => ?_⟩
  · rcases List.mem_append.mp hmem with hmem | hmem
    · exact h.sets key value hmem
    · cases List.mem_singleton.mp hmem
      exact ⟨app, happ, kind, credential, claims, time, hnul, rfl, hmint, hissued, le_rfl⟩
  · rcases List.mem_append.mp hmem with hmem | hmem
    · exact List.mem_append_left _ (h.gets key value hmem)
    · cases List.mem_singleton.mp hmem

variable (hanswers : Answers iam time services) (hfaithful : Faithful services)
  (happs : ∀ a ∈ apps, ∀ b ∈ apps, a.id = b.id → a = b)

include hanswers in
theorem now_yields : Yields (Stored iam apps time) (now services) (· = time) :=
  yields_ask (fun log _ => ⟨time, hanswers.clock log, rfl⟩) fun _ _ h _ => h.call nofun nofun

/-- The entry under an app's key for a credential is a token minted for both. -/
def Reads (iam : Iam) (time : Int) (app : ProxyApp) (kind : CredentialKind) (credential : String)
    (answer : Option CachedToken) : Prop :=
  ∀ value, answer = some value → ∃ claims issuedAt, iam.mint kind (audienceOf app) credential = .token claims ∧
    iam.Issued value.token (audienceOf app) claims issuedAt value.expiresAt ∧ issuedAt ≤ time

include hfaithful happs in
theorem stored_reads {app : ProxyApp} {answer : Option CachedToken} (hlog : Stored iam apps time log) (happ : app ∈ apps)
    (hnul : nul ∉ credential.toList) (hanswer : services.cacheGet log (cacheKey app.id kind credential) = .ok answer) :
    Reads iam time app kind credential answer := by
  intro value hvalue
  obtain ⟨answer', hget, hset⟩ := hfaithful log (cacheKey app.id kind credential)
  rw [hanswer] at hget
  cases hget
  obtain ⟨app', happ', kind', credential', claims, issuedAt, hnul', hkey, hmint, hissued, hat⟩ :=
    hlog.sets _ _ (hset value hvalue)
  obtain ⟨hid, rfl, rfl⟩ := cacheKey_inj hnul hnul' hkey
  obtain rfl := happs app happ app' happ' hid
  exact ⟨claims, issuedAt, hmint, hissued, hat⟩

include hfaithful happs in
theorem cacheGet_yields {app : ProxyApp} (happ : app ∈ apps) (hnul : nul ∉ credential.toList) :
    Yields (Stored iam apps time) (cacheGet services (cacheKey app.id kind credential)) (Reads iam time app kind credential) := by
  refine yields_ask (fun log hlog => ?_) fun log answer hlog hget => hlog.call nofun fun key value hcall => ?_
  · obtain ⟨answer, hget, -⟩ := hfaithful log (cacheKey app.id kind credential)
    exact ⟨answer, hget, stored_reads hfaithful happs hlog happ hnul hget⟩
  · cases hcall
    obtain ⟨answer', hget', hset⟩ := hfaithful log (cacheKey app.id kind credential)
    rw [hget] at hget'
    cases hget'
    exact hset value rfl

/-! ## What an exchange comes out as -/

/-- The token carries the minted claims, up to their times. -/
def Carries (iam : Iam) (time : Int) (minted : AccessTokenClaims) (token : String) (claims : AccessTokenClaims) : Prop :=
  timeless claims = timeless minted ∧ iam.Presents time token claims

variable {minted : AccessTokenClaims}

theorem carries_of {issuedAt : Int} (hissued : iam.Issued token audience minted issuedAt expiresAt) (hat : issuedAt ≤ time)
    (hlive : time < expiresAt) (hclaims : timeless claims = timeless minted) : Carries iam time minted token claims :=
  ⟨hclaims, .inl ⟨audience, minted, issuedAt, expiresAt, hissued, hat, hlive, hclaims.symm⟩⟩

include hanswers in
theorem verifyFresh_yields (hissued : iam.Issued token audience minted time expiresAt) (hlive : time < expiresAt) :
    Yields (Stored iam apps time) (verify services token (.app audience))
      fun answer => ∃ claims, answer = .verified claims ∧ Carries iam time minted token claims := by
  refine yields_ask (fun log _ => ?_) fun _ _ h _ => h.call nofun nofun
  obtain ⟨claims, hverify, hclaims⟩ := hanswers.fresh log token audience minted expiresAt hissued
  exact ⟨_, hverify, claims, rfl, carries_of hissued le_rfl hlive hclaims⟩

include hanswers in
theorem verifyCached_yields {issuedAt : Int} (hissued : iam.Issued token audience minted issuedAt expiresAt)
    (hat : issuedAt ≤ time) (hlive : time < expiresAt) :
    Yields (Stored iam apps time) (verify services token (.app audience))
      fun answer => answer = .invalid ∨ ∃ claims, answer = .verified claims ∧ Carries iam time minted token claims := by
  refine yields_ask (fun log _ => ?_) fun _ _ h _ => h.call nofun nofun
  rcases hanswers.kept log token audience minted issuedAt expiresAt hissued hat hlive with hverify | ⟨claims, hverify, hclaims⟩
  · exact ⟨_, hverify, .inl rfl⟩
  · exact ⟨_, hverify, .inr ⟨claims, rfl, carries_of hissued hat hlive hclaims⟩⟩

/-- IAM's mint, as `callIam` answers it. -/
def MintsAs (iam : Iam) (time : Int) (audience : String) (mint : Mint) (answer : MintResult) : Prop :=
  match mint with
  | .refused reason => answer = .refused reason
  | .token claims =>
    ∃ token expiresAt, answer = .minted token expiresAt ∧ iam.Issued token audience claims time expiresAt ∧ time < expiresAt

theorem callIam_yields {service : List Call → Except Failure MintResult} {ev : MintResult → Call} {mint : Mint}
    (h : ∀ log, Mints iam time audience (service log) mint) (hev : ∀ answer key value, ev answer ≠ .cacheSet key value)
    (hread : ∀ answer key value, ev answer = .cacheGet key (some value) → False) :
    Yields (Stored iam apps time) (callIam (Logged.ask service ev)) (MintsAs iam time audience mint) := by
  refine yields_mapError (yields_ask (fun log _ => ?_) fun _ _ hlog _ => hlog.call (hev _) fun key value hget =>
    (hread _ key value hget).elim)
  have hlog := h log
  cases mint with
  | refused reason => exact ⟨_, hlog, rfl⟩
  | token claims =>
    obtain ⟨token, expiresAt, hservice, hissued, hlive⟩ := hlog
    exact ⟨_, hservice, token, expiresAt, rfl, hissued, hlive⟩

/-- A key's exchange: the refusal, or a token with the minted claims. -/
def KeyOutcome (iam : Iam) (time : Int) (mint : Mint) (attempt : Attempt) : Prop :=
  match mint with
  | .refused reason => attempt = .denied { status := if reason = .invalidKey then 401 else 403, reason }
  | .token minted => ∃ token claims, attempt = .accepted token claims ∧ Carries iam time minted token claims

variable {app : ProxyApp}

include hanswers in
theorem mintFromKey_yields (happ : app ∈ apps) (hnul : nul ∉ bearer.toList) (requestId : String) :
    Yields (Stored iam apps time) (mintFromKey services app bearer requestId)
      (KeyOutcome iam time (iam.mint .key (audienceOf app) bearer)) := by
  unfold mintFromKey
  refine yields_bind (callIam_yields (fun log => hanswers.key log _ _ _) nofun nofun) fun answer hanswer => ?_
  cases hmint : iam.mint .key (audienceOf app) bearer with
  | refused reason =>
    rw [hmint] at hanswer
    obtain rfl : answer = .refused reason := hanswer
    exact yields_pure rfl
  | token minted =>
    rw [hmint] at hanswer
    obtain ⟨token, expiresAt, rfl, hissued, hlive⟩ := hanswer
    refine yields_bind (verifyFresh_yields hanswers hissued hlive) fun answer hanswer => ?_
    obtain ⟨claims, rfl, hcarries⟩ := hanswer
    refine yields_bind (P := fun _ => True) (yields_tell trivial fun log hlog => ?_) fun _ _ => ?_
    · exact hlog.set happ hnul hmint hissued
    · exact yields_pure ⟨token, claims, rfl, hcarries⟩

include hanswers hfaithful happs in
/-- Whatever the cache answers, a key comes out as IAM's mint for it does. -/
theorem exchangeKey_yields (happ : app ∈ apps) (hnul : nul ∉ bearer.toList) (requestId : String) :
    Yields (Stored iam apps time) (exchangeKey services app bearer requestId) fun attempt =>
      if Text.startsWith bearer apiKeyPrefix then KeyOutcome iam time (iam.mint .key (audienceOf app) bearer) attempt
      else attempt = .denied invalidKey := by
  unfold exchangeKey
  cases hprefix : Text.startsWith bearer apiKeyPrefix with
  | false => exact yields_pure (by simp)
  | true =>
    simp only [Bool.not_true, Bool.false_eq_true, if_false, if_true]
    refine yields_bind (cacheGet_yields hfaithful happs happ hnul) fun answer hanswer => ?_
    cases answer with
    | none => exact mintFromKey_yields hanswers happ hnul requestId
    | some cached =>
      obtain ⟨minted, issuedAt, hmint, hissued, hat⟩ := hanswer cached rfl
      dsimp only
      refine yields_bind (now_yields hanswers) fun seconds hseconds => ?_
      subst hseconds
      split
      · next hskew =>
        have hlive : seconds < cached.expiresAt := by
          simp only [tokenRefreshSkewSeconds] at hskew
          omega
        refine yields_bind (verifyCached_yields hanswers hissued hat hlive) fun answer hanswer => ?_
        rcases hanswer with rfl | ⟨claims, rfl, hcarries⟩
        · refine yields_bind (P := fun _ => True) (yields_tell trivial fun log hlog => hlog.call nofun nofun) fun _ _ => ?_
          exact mintFromKey_yields hanswers happ hnul requestId
        · refine yields_pure ?_
          rw [hmint]
          exact ⟨cached.token, claims, rfl, hcarries⟩
      · exact mintFromKey_yields hanswers happ hnul requestId

/-- A session's exchange: the refusal, a token with the minted claims where they are a user's, or no session. -/
def SessionOutcome (iam : Iam) (time : Int) (mint : Mint) (attempt : SessionAttempt) : Prop :=
  match mint with
  | .refused reason => attempt = if reason = .tokenTooLarge then .refused reason else .miss reason
  | .token minted =>
    if minted.ptype = some .user then ∃ token claims, attempt = .accepted token claims ∧ Carries iam time minted token claims
    else attempt = .miss .invalidSession

theorem timeless_ptype {a b : AccessTokenClaims} (h : timeless a = timeless b) : a.ptype = b.ptype := by
  have hptype := congrArg AccessTokenClaims.ptype h
  exact hptype

include hanswers in
theorem mintFromSession_yields (happ : app ∈ apps) {session : String} (hnul : nul ∉ session.toList) (requestId : String) :
    Yields (Stored iam apps time) (mintFromSession services app session requestId)
      (SessionOutcome iam time (iam.mint .session (audienceOf app) session)) := by
  unfold mintFromSession
  refine yields_bind (callIam_yields (fun log => hanswers.session log _ _ _) nofun nofun) fun answer hanswer => ?_
  cases hmint : iam.mint .session (audienceOf app) session with
  | refused reason =>
    rw [hmint] at hanswer
    obtain rfl : answer = .refused reason := hanswer
    exact yields_pure rfl
  | token minted =>
    rw [hmint] at hanswer
    obtain ⟨token, expiresAt, rfl, hissued, hlive⟩ := hanswer
    refine yields_bind (verifyFresh_yields hanswers hissued hlive) fun answer hanswer => ?_
    obtain ⟨claims, rfl, hcarries⟩ := hanswer
    dsimp only
    rw [timeless_ptype hcarries.1]
    split
    · next hother => exact yields_pure (by simp [SessionOutcome, hother])
    · next huser =>
      refine yields_bind (P := fun _ => True) (yields_tell trivial fun log hlog => ?_) fun _ _ => ?_
      · exact hlog.set happ hnul hmint hissued
      · refine yields_pure ?_
        simp only [SessionOutcome]
        rw [if_pos (not_not.mp huser)]
        exact ⟨token, claims, rfl, hcarries⟩

include hanswers hfaithful happs in
theorem authorizeSession_yields (happ : app ∈ apps) {request : ForwardedRequest} (hrequest : WellFormed request) :
    Yields (Stored iam apps time) (authorizeSession services app request) fun attempt =>
      match readCookie (request.headers "Cookie") sessionCookie with
      | none => attempt = .miss .noSession
      | some session => SessionOutcome iam time (iam.mint .session (audienceOf app) session) attempt := by
  unfold authorizeSession
  refine yields_bind (now_yields hanswers) fun seconds hseconds => ?_
  subst hseconds
  cases hsession : readCookie (request.headers "Cookie") sessionCookie with
  | none => exact yields_pure rfl
  | some session =>
    have hnul : nul ∉ session.toList := by
      intro hmem
      obtain ⟨header, hheader, hin⟩ := readCookie_mem hsession hmem
      exact hrequest "Cookie" header hheader hin
    dsimp only
    refine yields_bind (cacheGet_yields hfaithful happs happ hnul) fun answer hanswer => ?_
    cases answer with
    | none => exact mintFromSession_yields hanswers happ hnul request.requestId
    | some cached =>
      obtain ⟨minted, issuedAt, hmint, hissued, hat⟩ := hanswer cached rfl
      dsimp only
      split
      · next hskew =>
        have hlive : seconds < cached.expiresAt := by
          simp only [tokenRefreshSkewSeconds] at hskew
          omega
        refine yields_bind (verifyCached_yields hanswers hissued hat hlive) fun answer hanswer => ?_
        rcases hanswer with rfl | ⟨claims, rfl, hcarries⟩
        · refine yields_bind (P := fun _ => True) (yields_tell trivial fun log hlog => hlog.call nofun nofun) fun _ _ => ?_
          exact mintFromSession_yields hanswers happ hnul request.requestId
        · dsimp only
          split
          · next huser =>
            refine yields_pure ?_
            rw [hmint]
            simp only [SessionOutcome]
            rw [if_pos (timeless_ptype hcarries.1 ▸ huser)]
            exact ⟨cached.token, claims, rfl, hcarries⟩
          · refine yields_bind (P := fun _ => True) (yields_tell trivial fun log hlog => hlog.call nofun nofun) fun _ _ => ?_
            exact mintFromSession_yields hanswers happ hnul request.requestId
      · exact mintFromSession_yields hanswers happ hnul request.requestId

end Yields

/-! ## Two authorizers decide alike -/

section Agree

variable {iam : Iam} {apps : List ProxyApp} {time : Int} {services services' : Services}
  (hanswers : Answers iam time services) (hanswers' : Answers iam time services')

/-- Two accepted tokens with the same claims up to their times. -/
def SameCaller (iam : Iam) (time : Int) (token token' : String) (claims claims' : AccessTokenClaims) : Prop :=
  timeless claims = timeless claims' ∧ iam.Presents time token claims ∧ iam.Presents time token' claims'

variable {app : ProxyApp} {request : ForwardedRequest}

variable {token' : String}

theorem sameCaller_of {minted claims claims' : AccessTokenClaims} (h : Carries iam time minted token claims)
    (h' : Carries iam time minted token' claims') : SameCaller iam time token token' claims claims' :=
  ⟨h.1.trans h'.1.symm, h.2, h'.2⟩

inductive SameAttempt (iam : Iam) (time : Int) : Attempt → Attempt → Prop
  | accepted {token token' : String} {claims claims' : AccessTokenClaims} : SameCaller iam time token token' claims claims' →
      SameAttempt iam time (.accepted token claims) (.accepted token' claims')
  | denied (denial : Denial) : SameAttempt iam time (.denied denial) (.denied denial)

inductive SameSession (iam : Iam) (time : Int) : SessionAttempt → SessionAttempt → Prop
  | accepted {token token' : String} {claims claims' : AccessTokenClaims} : SameCaller iam time token token' claims claims' →
      SameSession iam time (.accepted token claims) (.accepted token' claims')
  | miss (reason : DenyReason) : SameSession iam time (.miss reason) (.miss reason)
  | refused (reason : DenyReason) : SameSession iam time (.refused reason) (.refused reason)

inductive SameEnd (iam : Iam) (time : Int) : EndpointCaller → EndpointCaller → Prop
  | caller {token token' : String} {claims claims' : AccessTokenClaims} {session : Bool} :
      SameCaller iam time token token' claims claims' →
      SameEnd iam time (.caller token claims session) (.caller token' claims' session)
  | ended {decision decision' : Decision} : decision.seen = decision'.seen → SameEnd iam time (.ended decision) (.ended decision')

theorem sameAttempt_of {mint : Mint} {attempt attempt' : Attempt} (h : KeyOutcome iam time mint attempt)
    (h' : KeyOutcome iam time mint attempt') : SameAttempt iam time attempt attempt' := by
  cases mint with
  | refused reason =>
    simp only [KeyOutcome] at h h'
    subst h h'
    exact .denied _
  | token minted =>
    obtain ⟨token, claims, rfl, hcarries⟩ := h
    obtain ⟨token', claims', rfl, hcarries'⟩ := h'
    exact .accepted (sameCaller_of hcarries hcarries')

theorem sameSession_of {mint : Mint} {attempt attempt' : SessionAttempt} (h : SessionOutcome iam time mint attempt)
    (h' : SessionOutcome iam time mint attempt') : SameSession iam time attempt attempt' := by
  cases mint with
  | refused reason =>
    simp only [SessionOutcome] at h h'
    subst h h'
    split
    · exact .refused reason
    · exact .miss reason
  | token minted =>
    simp only [SessionOutcome] at h h'
    split at h
    · next huser =>
      rw [if_pos huser] at h'
      obtain ⟨token, claims, rfl, hcarries⟩ := h
      obtain ⟨token', claims', rfl, hcarries'⟩ := h'
      exact .accepted (sameCaller_of hcarries hcarries')
    · next hother =>
      rw [if_neg hother] at h'
      subst h h'
      exact .miss _

include hanswers hanswers' in
theorem verifyOAuthBearer_agree (app : ProxyApp) (binding : OAuthBinding) (bearer : Option String) :
    Agree (Stored iam apps time) (Stored iam apps time) (verifyOAuthBearer services app binding bearer)
      (verifyOAuthBearer services' app binding bearer) (SameAttempt iam time) := by
  unfold verifyOAuthBearer
  cases bearer with
  | none => exact agree_pure (.denied _)
  | some bearer =>
    generalize haudience : TokenAudience.resource (audienceOf app) binding.resource.resource = audience
    have hverify : ∀ {services : Services}, Answers iam time services →
        Yields (Stored iam apps time) (verify services bearer audience) (· = iam.bearer time bearer audience) := by
      intro services hanswers
      subst haudience
      exact yields_ask (fun log _ => ⟨_, hanswers.bearer log _ _ _, rfl⟩) fun _ _ h _ => h.call nofun nofun
    refine agree_bind ((hverify hanswers).agree (hverify hanswers') (R := fun a b => a = iam.bearer time bearer audience ∧ a = b)
      (fun a b ha hb => ⟨ha, ha.trans hb.symm⟩)) ?_
    rintro answer _ ⟨hanswer, rfl⟩
    cases answer with
    | unavailable =>
      subst haudience
      exact absurd hanswer.symm (hanswers.reachable bearer _ _)
    | invalid => exact agree_pure (.denied _)
    | verified claims =>
      dsimp only
      split
      · subst haudience
        have hpresents : iam.Presents time bearer claims := .inr ⟨_, _, hanswer.symm⟩
        exact agree_pure (.accepted ⟨rfl, hpresents, hpresents⟩)
      · exact agree_pure (.denied _)

include hanswers hanswers' in
theorem loginDecision_agree (app : ProxyApp) (request : ForwardedRequest) (reason : DenyReason) :
    Agree (Stored iam apps time) (Stored iam apps time) (loginDecision services app request reason)
      (loginDecision services' app request reason) (fun a b => a.seen = b.seen) := by
  unfold loginDecision
  have hhandoff : ∀ {services : Services}, Answers iam time services →
      Yields (Stored iam apps time) (Logged.ask services.createHandoffAttempt Call.handoff) (fun _ => True) := by
    intro services hanswers
    refine yields_ask (fun log _ => ?_) fun _ _ h _ => h.call nofun nofun
    obtain ⟨attempt, hattempt⟩ := hanswers.handoff log
    exact ⟨attempt, hattempt, trivial⟩
  refine agree_bind ((hhandoff hanswers).agree (hhandoff hanswers') (R := fun _ _ => True) (fun _ _ _ _ => trivial)) fun _ _ _ =>
    ?_
  exact agree_pure rfl

include hanswers hanswers' in
/-- The issuer grants both callers or refuses both. -/
theorem rowDelegation_agree (app : ProxyApp) (row : ManifestEndpointRow) {claims' : AccessTokenClaims} (requestId : String)
    (hcaller : SameCaller iam time token token' claims claims') :
    Agree (Stored iam apps time) (Stored iam apps time) (rowDelegation services app row token requestId)
      (rowDelegation services' app row token' requestId) (fun a b => a.isSome = b.isSome) := by
  unfold rowDelegation
  cases row.delegation with
  | none => exact agree_pure rfl
  | some delegation =>
    unfold obtainDelegation
    cases hgrants : iam.grants with
    | none =>
      rw [hanswers.unissued.mpr hgrants, hanswers'.unissued.mpr hgrants]
      exact agree_pure rfl
    | some grants =>
      have hissuer : ∀ {services : Services}, Answers iam time services → ∃ issuer, services.requestDelegation = some issuer := by
        intro services hanswers
        refine Option.ne_none_iff_exists'.mp fun hnone => ?_
        rw [hanswers.unissued.mp hnone] at hgrants
        cases hgrants
      obtain ⟨issuer, hissued⟩ := hissuer hanswers
      obtain ⟨issuer', hissued'⟩ := hissuer hanswers'
      rw [hissued, hissued']
      dsimp only
      have hask : ∀ {services : Services}, Answers iam time services → ∀ issuer, services.requestDelegation = some issuer →
          ∀ token claims, iam.Presents time token claims → Yields (Stored iam apps time)
            (callIam (Logged.ask (issuer · (audienceOf app) token requestId row.id)
              (.requestDelegation (audienceOf app) token requestId row.id)))
            fun grant =>
              (∃ text, grant = some text ∧ text ≠ "") ↔ grants time (audienceOf app) (timeless claims) row.id = true := by
        intro services hanswers issuer hissued token claims hpresents
        refine yields_mapError (yields_ask (fun log _ => ?_) fun _ _ h _ => h.call nofun nofun)
        exact hanswers.delegation issuer grants hissued hgrants log _ _ _ _ _ hpresents
      have hsome : ∀ grant : Option String, (grant.bind fun text => if text = "" then none else some (some text)).isSome = true
          ↔ ∃ text, grant = some text ∧ text ≠ "" := by
        intro grant
        cases grant with
        | none => simp
        | some text =>
          by_cases hempty : text = ""
          · simp [hempty]
          · simp [hempty]
      refine agree_bind ((hask hanswers issuer hissued token claims hcaller.2.1).agree
        (hask hanswers' issuer' hissued' token' claims' hcaller.2.2)
        (R := fun a b => (∃ text, a = some text ∧ text ≠ "") ↔ ∃ text, b = some text ∧ text ≠ "") ?_) ?_
      · intro grant grant' hgrant hgrant'
        rw [hgrant, hgrant', hcaller.1]
      · intro grant grant' hiff
        have hboth := (hsome grant).trans (hiff.trans (hsome grant').symm)
        refine agree_pure (Bool.eq_iff_iff.mpr ?_)
        cases grant <;> cases grant' <;> exact hboth

theorem callerOf_timeless (claims : AccessTokenClaims) : callerOf (timeless claims) = callerOf claims := rfl

include hanswers hanswers' in
theorem decideCaller_agree (app : ProxyApp) (row : ManifestEndpointRow) (requirement : EndpointRequirement)
    (oauth : Option OAuthBinding) (request : ForwardedRequest) (crossOrigin : Option String) {claims' : AccessTokenClaims}
    (session : Bool) (hcaller : SameCaller iam time token token' claims claims') :
    Agree (Stored iam apps time) (Stored iam apps time)
      (decideCaller services app row requirement oauth request crossOrigin token claims session)
      (decideCaller services' app row requirement oauth request crossOrigin token' claims' session)
      (fun a b => a.seen = b.seen) := by
  have hkind : callerOf claims' = callerOf claims := by
    rw [← callerOf_timeless, ← hcaller.1, callerOf_timeless]
  have hperms : claims'.perms = claims.perms := (congrArg AccessTokenClaims.perms hcaller.1).symm
  have hsub : claims'.sub = claims.sub := (congrArg AccessTokenClaims.sub hcaller.1).symm
  unfold decideCaller
  rw [hkind, hperms, hsub]
  cases (callerOf claims).filter fun kind => row.callers.contains kind && callerAdmittedAt kind row.path with
  | none => exact agree_pure rfl
  | some kind =>
    dsimp only
    split
    · exact agree_pure rfl
    · split
      · exact agree_pure rfl
      · cases admitBody row request.headers with
        | some denial => exact agree_pure rfl
        | none =>
          dsimp only
          refine agree_bind (rowDelegation_agree hanswers hanswers' app row request.requestId hcaller) ?_
          intro grant grant' hgrant
          cases grant with
          | none =>
            cases grant' with
            | none => exact agree_pure rfl
            | some _ => cases hgrant
          | some grant =>
            cases grant' with
            | none => cases hgrant
            | some grant' => exact agree_pure rfl

variable (hfaithful : Faithful services) (hfaithful' : Faithful services') (happs : ∀ a ∈ apps, ∀ b ∈ apps, a.id = b.id → a = b)

include hanswers hanswers' hfaithful hfaithful' happs in
theorem endpointCaller_agree (happ : app ∈ apps) (oauth : Option OAuthBinding) (callers : List TokenCaller)
    (hrequest : WellFormed request) (crossOrigin : Bool) :
    Agree (Stored iam apps time) (Stored iam apps time) (endpointCaller services app oauth callers request crossOrigin)
      (endpointCaller services' app oauth callers request crossOrigin) (SameEnd iam time) := by
  have hkeyed : ∀ (bearer : Option String), (∀ text, bearer = some text → nul ∉ text.toList) →
      Agree (Stored iam apps time) (Stored iam apps time) (keyAttempt services app bearer request.requestId)
        (keyAttempt services' app bearer request.requestId) (SameAttempt iam time) := by
    intro bearer hnul
    cases bearer with
    | none => exact agree_pure (.denied _)
    | some bearer =>
      refine (exchangeKey_yields hanswers hfaithful happs happ (hnul bearer rfl) request.requestId).agree
        (exchangeKey_yields hanswers' hfaithful' happs happ (hnul bearer rfl) request.requestId) fun attempt attempt' h h' => ?_
      split at h
      · next hprefix =>
        rw [if_pos hprefix] at h'
        exact sameAttempt_of h h'
      · next hprefix =>
        rw [if_neg hprefix] at h'
        subst h h'
        exact .denied _
  unfold endpointCaller
  cases hauthorization : nonBlank (request.headers "Authorization") with
  | some authorization =>
    dsimp only
    have hnul : ∀ text, readBearer authorization = some text → nul ∉ text.toList := by
      intro text htext hmem
      have hheader : request.headers "Authorization" = some authorization := (Option.filter_eq_some_iff.mp hauthorization).1
      exact hrequest _ _ hheader (readBearer_mem htext hmem)
    split
    · refine agree_bind (verifyOAuthBearer_agree hanswers hanswers' app _ _) fun attempt attempt' hsame => ?_
      cases hsame with
      | accepted hcaller => exact agree_pure (.caller hcaller)
      | denied denial => exact agree_pure (.ended rfl)
    · refine agree_bind (hkeyed _ hnul) fun attempt attempt' hsame => ?_
      cases hsame with
      | accepted hcaller => exact agree_pure (.caller hcaller)
      | denied denial => exact agree_pure (.ended rfl)
  | none =>
    dsimp only
    split
    · exact agree_pure (.ended rfl)
    · refine agree_bind ((authorizeSession_yields hanswers hfaithful happs happ hrequest).agree
        (authorizeSession_yields hanswers' hfaithful' happs happ hrequest)
        (R := SameSession iam time) fun attempt attempt' h h' => ?_) ?_
      · split at h
        · next hnone =>
          simp only [hnone] at h'
          subst h h'
          exact .miss _
        · next session hsession =>
          simp only [hsession] at h'
          exact sameSession_of h h'
      · intro attempt attempt' hsame
        cases hsame with
        | accepted hcaller => exact agree_pure (.caller hcaller)
        | refused reason => exact agree_pure (.ended rfl)
        | miss reason =>
          refine agree_bind (loginDecision_agree hanswers hanswers' app request reason) fun decision decision' hseen => ?_
          exact agree_pure (.ended hseen)

include hanswers hanswers' hfaithful hfaithful' happs in
theorem decideRow_agree (happ : app ∈ apps) (row : ManifestEndpointRow) (hrequest : WellFormed request)
    (crossOrigin : Option String) :
    Agree (Stored iam apps time) (Stored iam apps time) (decideRow services app row request crossOrigin)
      (decideRow services' app row request crossOrigin) (fun a b => a.seen = b.seen) := by
  unfold decideRow
  cases row.requirement with
  | none =>
    dsimp only
    cases admitBody row request.headers <|> admitFormOrigin app row request crossOrigin with
    | some denial => exact agree_pure rfl
    | none => exact agree_pure rfl
  | some requirement =>
    dsimp only
    cases oauthBindingOf app row with
    | none => exact agree_pure rfl
    | some oauth =>
      refine agree_bind (endpointCaller_agree hanswers hanswers' hfaithful hfaithful' happs happ oauth row.callers hrequest _) ?_
      intro caller caller' hsame
      cases hsame with
      | ended hseen => exact agree_pure hseen
      | caller hcaller => exact decideCaller_agree hanswers hanswers' app row requirement oauth request crossOrigin _ hcaller

theorem seen_readable {decision decision' : Decision} (crossOrigin : Option String) (h : decision.seen = decision'.seen) :
    (readable crossOrigin decision).seen = (readable crossOrigin decision').seen := by
  cases decision with
  | deny denial =>
    cases decision' with
    | deny denial' =>
      cases h
      rfl
    | allow _ => cases h
    | preflight _ _ => cases h
    | login _ _ _ _ => cases h
  | allow _ =>
    cases decision' with
    | allow _ => exact h
    | deny _ => cases h
    | preflight _ _ => cases h
    | login _ _ _ _ => cases h
  | preflight _ _ =>
    cases decision' with
    | preflight _ _ => exact h
    | allow _ => cases h
    | deny _ => cases h
    | login _ _ _ _ => cases h
  | login _ _ _ _ =>
    cases decision' with
    | login _ _ _ _ => exact h
    | allow _ => cases h
    | deny _ => cases h
    | preflight _ _ => cases h

include hanswers hanswers' hfaithful hfaithful' happs in
theorem decideEndpoint_agree (happ : app ∈ apps) (table : CompiledEndpointTable ManifestEndpointRow)
    (hrequest : WellFormed request) :
    Agree (Stored iam apps time) (Stored iam apps time) (decideEndpoint services app table request)
      (decideEndpoint services' app table request) (fun a b => a.seen = b.seen) := by
  unfold decideEndpoint
  cases decidePreflight table app request with
  | some decision => exact agree_pure rfl
  | none =>
    dsimp only
    cases planEndpoint table request.method request.rawPath with
    | nonCanonical => exact agree_pure rfl
    | noEndpoint => exact agree_pure rfl
    | endpoint row params =>
      refine agree_bind (decideRow_agree hanswers hanswers' hfaithful hfaithful' happs happ row hrequest _) ?_
      exact fun decision decision' hseen => agree_pure (seen_readable _ hseen)

include hanswers hanswers' hfaithful hfaithful' happs in
theorem authorize_agree (happ : app ∈ apps) (table : CompiledEndpointTable ManifestEndpointRow) (hrequest : WellFormed request)
    {log' : List Call} (hlog : Stored iam apps time log) (hlog' : Stored iam apps time log') :
    (authorize services app table request log).1.seen = (authorize services' app table request log').1.seen ∧
      Stored iam apps time (authorize services app table request log).2 ∧
      Stored iam apps time (authorize services' app table request log').2 := by
  obtain ⟨decision, decision', next, next', hrun, hrun', hnext, hnext', hseen⟩ :=
    decideEndpoint_agree hanswers hanswers' hfaithful hfaithful' happs happ table hrequest log log' hlog hlog'
  simp only [authorize, hrun, hrun']
  exact ⟨hseen, hnext, hnext'⟩

end Agree

/-! ## Sequences of requests -/

theorem authorizeAll_agree {iam : Iam} {apps : List ProxyApp} (happs : ∀ a ∈ apps, ∀ b ∈ apps, a.id = b.id → a = b)
    (arrivals : List Arrival) (hin : ∀ a ∈ arrivals, a.app ∈ apps ∧ WellFormed a.request)
    (hclock : arrivals.Pairwise fun a b => a.time ≤ b.time)
    (hcached : ∀ a ∈ arrivals, Answers iam a.time a.cached ∧ Faithful a.cached)
    (huncached : ∀ a ∈ arrivals, Answers iam a.time a.uncached ∧ Faithful a.uncached) {time : Int} {log' : List Call}
    (htime : ∀ a ∈ arrivals, time ≤ a.time) (hlog : Stored iam apps time log) (hlog' : Stored iam apps time log') :
    (authorizeAll Arrival.cached arrivals log).1.map Decision.seen =
    (authorizeAll Arrival.uncached arrivals log').1.map Decision.seen ∧
      ∃ later, Stored iam apps later (authorizeAll Arrival.cached arrivals log).2 := by
  induction arrivals generalizing time log log' with
  | nil => exact ⟨rfl, time, hlog⟩
  | cons arrival rest ih =>
    obtain ⟨happ, hrequest⟩ := hin arrival List.mem_cons_self
    obtain ⟨hanswers, hfaithful⟩ := hcached arrival List.mem_cons_self
    obtain ⟨hanswers', hfaithful'⟩ := huncached arrival List.mem_cons_self
    have hle : time ≤ arrival.time := htime arrival List.mem_cons_self
    obtain ⟨hseen, hnext, hnext'⟩ := authorize_agree hanswers hanswers' hfaithful hfaithful' happs happ arrival.table hrequest
      (hlog.mono hle) (hlog'.mono hle)
    obtain ⟨hrest, later, hlater⟩ := ih (fun a ha => hin a (List.mem_cons_of_mem _ ha)) (List.pairwise_cons.mp hclock).2
      (fun a ha => hcached a (List.mem_cons_of_mem _ ha)) (fun a ha => huncached a (List.mem_cons_of_mem _ ha))
      (List.pairwise_cons.mp hclock).1 hnext hnext'
    simp only [authorizeAll, List.map_cons, hseen]
    exact ⟨by rw [hrest], later, hlater⟩

theorem stored_nil (iam : Iam) (apps : List ProxyApp) (time : Int) : Stored iam apps time [] :=
  ⟨(fun _ _ h => nomatch h), (fun _ _ h => nomatch h)⟩

/-- The authorizer with a cache and the one without decide every request of a sequence alike; and every entry the
    cache answered for an app, a kind and a credential was minted for that app's audience from that credential. -/
theorem cache_transparent (iam : Iam) (arrivals : List Arrival)
    (happs : ∀ a ∈ arrivals, ∀ b ∈ arrivals, a.app.id = b.app.id → a.app = b.app)
    (hrequests : ∀ a ∈ arrivals, WellFormed a.request) (hclock : arrivals.Pairwise fun a b => a.time ≤ b.time)
    (hcached : ∀ a ∈ arrivals, Answers iam a.time a.cached ∧ Faithful a.cached)
    (huncached : ∀ a ∈ arrivals, Answers iam a.time a.uncached ∧ ∀ log key, a.uncached.cacheGet log key = .ok none) :
    (authorizeAll Arrival.cached arrivals []).1.map Decision.seen =
    (authorizeAll Arrival.uncached arrivals []).1.map Decision.seen ∧
      ∀ arrival ∈ arrivals, ∀ kind credential value, nul ∉ credential.toList →
        Call.cacheGet (cacheKey arrival.app.id kind credential) (some value) ∈ (authorizeAll Arrival.cached arrivals []).2 →
        ∃ claims issuedAt, iam.mint kind (audienceOf arrival.app) credential = .token claims ∧
          iam.Issued value.token (audienceOf arrival.app) claims issuedAt value.expiresAt := by
  have happs : ∀ a ∈ arrivals.map Arrival.app, ∀ b ∈ arrivals.map Arrival.app, a.id = b.id → a = b := by
    intro a ha b hb hid
    obtain ⟨arrival, harrival, rfl⟩ := List.mem_map.mp ha
    obtain ⟨arrival', harrival', rfl⟩ := List.mem_map.mp hb
    exact happs arrival harrival arrival' harrival' hid
  obtain ⟨time, htime⟩ : ∃ time, ∀ a ∈ arrivals, time ≤ a.time := by
    cases arrivals with
    | nil => exact ⟨0, fun a ha => nomatch ha⟩
    | cons first rest =>
      refine ⟨first.time, fun a ha => ?_⟩
      rcases List.mem_cons.mp ha with rfl | ha
      · exact le_rfl
      · exact (List.pairwise_cons.mp hclock).1 a ha
  obtain ⟨hseen, later, hstored⟩ := authorizeAll_agree happs arrivals
    (fun a ha => ⟨List.mem_map_of_mem ha, hrequests a ha⟩) hclock hcached
    (fun a ha => ⟨(huncached a ha).1, fun log key => ⟨none, (huncached a ha).2 log key, fun _ h => nomatch h⟩⟩)
    htime (stored_nil iam _ time) (stored_nil iam _ time)
  refine ⟨hseen, fun arrival harrival kind credential value hnul hget => ?_⟩
  obtain ⟨app, happ, kind', credential', claims, issuedAt, hnul', hkey, hmint, hissued, -⟩ :=
    hstored.sets _ _ (hstored.gets _ _ hget)
  obtain ⟨hid, rfl, rfl⟩ := cacheKey_inj hnul hnul' hkey
  obtain rfl := happs _ (List.mem_map_of_mem harrival) app happ hid
  exact ⟨claims, issuedAt, hmint, hissued⟩

/-! ## A session used past its first token -/

/-- The times at which IAM mints here, and the token it signs then. -/
def mintedAt : List (Int × String) := [(0, "first"), (100, "second"), (400, "third")]

def sharedEndpoint (app : String) (claims : AccessTokenClaims) (endpoint : String) : Bool :=
  app = "notes@prod" && claims.sub = "p1" && endpoint = "notes.list"

def notesIam : Iam where
  mint kind audience credential :=
    if kind = .session ∧ audience = "notes@prod" ∧ credential = "s" then .token readerClaims else .refused .disabled
  Issued token audience claims issuedAt expiresAt :=
    (issuedAt, token) ∈ mintedAt ∧ audience = "notes@prod" ∧ claims = readerClaims ∧ expiresAt = issuedAt + 300
  bearer _ _ _ := .invalid
  grants := some fun _ app claims endpoint => sharedEndpoint app claims endpoint

def claimsAt (minted : Int × String) : AccessTokenClaims := { readerClaims with iat := minted.1, exp := minted.1 + 300 }

/-- The claims of a token, while it lives. -/
def heldAt (time : Int) (token : String) : Option AccessTokenClaims :=
  (mintedAt.find? fun minted => minted.2 = token ∧ minted.1 ≤ time ∧ time < minted.1 + 300).map claimsAt

/-- A verifier and an issuer that refuse a token which has expired. -/
def notesServices (minted : Int × String) : Services where
  cacheGet _ _ := .ok none
  now _ := .ok minted.1
  mintToken _ audience session _ :=
    .ok (if audience = "notes@prod" ∧ session = "s" then .minted minted.2 (minted.1 + 300) else .refused .disabled)
  mintFromKey _ _ _ _ := .ok (.refused .disabled)
  requestDelegation := some fun _ app token _ endpoint =>
    .ok (((heldAt minted.1 token).filter fun claims => sharedEndpoint app claims endpoint).map fun _ => "grant")
  verify _ token audience :=
    .ok (match audience with
      | .app name => if name = "notes@prod" then ((heldAt minted.1 token).map .verified).getD .invalid else .invalid
      | .resource _ _ => .invalid)
  createHandoffAttempt _ := .ok ⟨"state", "verifier", "challenge"⟩
  loginUrl _ url _ := url

/-- A token that lives is held, with the claims it was minted with. -/
theorem heldAt_issued {time issuedAt expiresAt : Int} (h : notesIam.Issued token audience claims issuedAt expiresAt)
    (hat : issuedAt ≤ time) (hlive : time < expiresAt) :
    ∃ held, heldAt time token = some held ∧ timeless held = timeless claims := by
  obtain ⟨hmem, rfl, rfl, rfl⟩ := h
  have hfound : ((mintedAt.find? fun minted => minted.2 = token ∧ minted.1 ≤ time ∧ time < minted.1 + 300)).isSome = true := by
    rw [List.find?_isSome]
    exact ⟨_, hmem, decide_eq_true ⟨rfl, hat, hlive⟩⟩
  obtain ⟨minted, hminted⟩ := Option.isSome_iff_exists.mp hfound
  exact ⟨claimsAt minted, by rw [heldAt, hminted, Option.map_some], rfl⟩

theorem notes_answers {minted : Int × String} (hminted : minted ∈ mintedAt)
    (get : List Call → String → Except Failure (Option CachedToken)) :
    Answers notesIam minted.1 { notesServices minted with cacheGet := get } where
  clock _ := rfl
  session log audience session requestId := by
    by_cases h : audience = "notes@prod" ∧ session = "s"
    · have hmint : notesIam.mint .session audience session = .token readerClaims := if_pos ⟨rfl, h⟩
      rw [hmint]
      exact ⟨minted.2, minted.1 + 300, by simp [notesServices, h], ⟨hminted, h.1, rfl, rfl⟩, by omega⟩
    · have hmint : notesIam.mint .session audience session = .refused .disabled := if_neg fun hall => h hall.2
      rw [hmint]
      simp [Mints, notesServices, h]
  key log audience key requestId := by
    have hmint : notesIam.mint .key audience key = .refused .disabled := by
      simp [notesIam]
    rw [hmint]
    rfl
  fresh log token audience claims expiresAt h := by
    obtain ⟨held, hheld, hclaims⟩ := heldAt_issued h le_rfl (by rw [h.2.2.2]; omega)
    exact ⟨held, by simp [notesServices, h.2.1, hheld], hclaims⟩
  kept log token audience claims issuedAt expiresAt h hat hlive := by
    obtain ⟨held, hheld, hclaims⟩ := heldAt_issued h hat hlive
    exact .inr ⟨held, by simp [notesServices, h.2.1, hheld], hclaims⟩
  bearer log token app resource := rfl
  reachable token app resource := by simp [notesIam]
  unissued := by simp [notesServices, notesIam]
  delegation issuer grants hissuer hgrants log app token requestId endpoint claims hpresents := by
    cases hissuer
    cases hgrants
    obtain ⟨audience, signed, issuedAt, expiresAt, hissued, hat, hlive, hclaims⟩ | ⟨_, _, hbearer⟩ := hpresents
    · obtain ⟨held, hheld, hsame⟩ := heldAt_issued hissued hat hlive
      have hshared : sharedEndpoint app (timeless claims) endpoint = sharedEndpoint app (timeless held) endpoint := by
        rw [hsame, hclaims]
      refine ⟨_, rfl, ?_⟩
      dsimp only
      rw [hheld, hshared]
      show _ ↔ sharedEndpoint app held endpoint = true
      cases h : sharedEndpoint app held endpoint <;> simp [h]
    · cases hbearer
  handoff _ := ⟨_, rfl⟩

/-- The page manages a note's members, so it spends a grant. -/
def sharedTable : CompiledEndpointTable ManifestEndpointRow :=
  ⟨[⟨{ notesRow with delegation := some .members }, [.literal "notes"]⟩], []⟩

def notesArrival (minted : Int × String) : Arrival :=
  ⟨notesApp, sharedTable, sessionRequest, minted.1, (notesServices minted).withMemory 10 1000, (notesServices minted).uncached⟩

def notesArrivals : List Arrival := mintedAt.map notesArrival

/-- The second request is answered from the cache, the third comes when that token has expired, and
    each obtains its delegation as without a cache. -/
theorem a_session_used_past_its_token :
    (authorizeAll Arrival.cached notesArrivals []).1.map Decision.seen =
    (authorizeAll Arrival.uncached notesArrivals []).1.map Decision.seen ∧
    (∀ call ∈ [.cacheGet "notes@prod\x00session\x00s" (some ⟨"first", 300⟩),
      .mintToken "notes@prod" "s" "r1" (.minted "third" 700),
      .requestDelegation "notes@prod" "third" "r1" "notes.list" (some "grant")],
      call ∈ (authorizeAll Arrival.cached notesArrivals []).2) ∧
    heldAt 400 "first" = none := by
  refine ⟨(cache_transparent notesIam notesArrivals ?_ ?_ (by decide) ?_ ?_).1, by decide, by decide⟩
  · intro a ha b hb _
    obtain ⟨_, -, rfl⟩ := List.mem_map.mp ha
    obtain ⟨_, -, rfl⟩ := List.mem_map.mp hb
    rfl
  · intro a ha name value hvalue
    obtain ⟨_, -, rfl⟩ := List.mem_map.mp ha
    simp only [notesArrival, sessionRequest] at hvalue
    split at hvalue
    · cases hvalue
      decide
    · cases hvalue
  · intro a ha
    obtain ⟨minted, hminted, rfl⟩ := List.mem_map.mp ha
    exact ⟨notes_answers hminted _, memory_faithful _ _ _⟩
  · intro a ha
    obtain ⟨minted, hminted, rfl⟩ := List.mem_map.mp ha
    exact ⟨notes_answers hminted _, fun _ _ => rfl⟩

end Fabrika.Proxy
