/-
  Fabrika.Proxy.AuthorizeProofs — the decision fails closed.

  Each credential path ensures what it accepts: a token the verifier accepted in this very
  call, for the app or for the row's registered resource with every required scope. Only
  the session path touches the session cookie's cache entries and mints
  (`Call.UsesSession`), and it is reached only without an `Authorization`, on a row a
  person may call, from no admitted origin. `authorize_allow` then reads the whole
  decision: whatever the services answer or throw, an allowance is of a row the table
  selected, anonymous, or with a caller, a path and permissions the row admits.
-/

import Fabrika.Proxy.Authorize

namespace Fabrika.Proxy

open Fabrika.Lib Fabrika.Lib.Logged Fabrika.AuthCore Fabrika.AuthCore.Endpoints

/-! ## Which calls use a session -/

/-- The only ways a token comes from the session cookie: the cache's entry of a session, and
    a mint from one. -/
def Call.UsesSession (app : ProxyApp) : Call → Prop
  | .cacheGet key _ => ∃ session, key = cacheKey app.id .session session
  | .mintToken _ _ _ _ => True
  | _ => False

def Sessionless (app : ProxyApp) (calls : List Call) : Prop := ∀ call ∈ calls, ¬ call.UsesSession app

theorem sessionless_nil {app : ProxyApp} : Sessionless app [] := by
  intro call hc
  cases hc

theorem sessionless_append {app : ProxyApp} {a b : List Call} :
    Sessionless app (a ++ b) ↔ Sessionless app a ∧ Sessionless app b := by
  simp only [Sessionless, List.mem_append, or_imp, forall_and]

theorem cacheKey_kind (app a b : String) : cacheKey app .key a ≠ cacheKey app .session b := by
  intro h
  have hl := congrArg String.toList h
  simp only [cacheKey, CredentialKind.text, String.toList_append, List.append_assoc, List.append_cancel_left_eq] at hl
  cases hl

/-! ## What each credential path accepts -/

section
variable {services : Services} {app : ProxyApp}

def VerifiedFor (audience : TokenAudience) (token : String) (claims : AccessTokenClaims) (calls : List Call) : Prop :=
  .verify token audience (.verified claims) ∈ calls

/-- Every scope is one the token was granted. -/
def GrantsScopes (scopes : List String) (claims : AccessTokenClaims) : Prop :=
  ∀ scope ∈ scopes, ∃ oauth, claims.oauth = some oauth ∧ scope ∈ oauth.scopes

/-- A key or an OAuth attempt: it used no session, and what it accepts satisfies `P`. -/
def Accepts (app : ProxyApp) (P : String → AccessTokenClaims → List Call → Prop) (attempt : Attempt) (calls : List Call) : Prop :=
  Sessionless app calls ∧ ∀ token claims, attempt = .accepted token claims → P token claims calls

variable {calls : List Call} {claims : AccessTokenClaims} {oauth : Option OAuthBinding} {request : ForwardedRequest}
variable {token : String}

theorem accepts_denied {P : String → AccessTokenClaims → List Call → Prop} {denial : Denial} (h : Sessionless app calls) :
    Accepts app P (.denied denial) calls :=
  ⟨h, fun _ _ he => by cases he⟩

theorem verify_ensures (token : String) (audience : TokenAudience) :
    Ensures (verify services token audience) fun answer calls => calls = [.verify token audience answer] :=
  ensures_ask fun _ => rfl

theorem verifyOAuthBearer_ensures (binding : OAuthBinding) (bearer : Option String) :
    Ensures (verifyOAuthBearer services app binding bearer) (Accepts app fun token claims calls =>
      bearer = some token ∧ GrantsScopes binding.scopes claims ∧
        VerifiedFor (.resource (audienceOf app) binding.resource.resource) token claims calls) := by
  unfold verifyOAuthBearer
  cases bearer with
  | none => exact ensures_pure (accepts_denied sessionless_nil)
  | some bearer =>
    refine ensures_bind (verify_ensures bearer _) ?_
    intro answer calls hcalls
    subst hcalls
    have hnone : Sessionless app [.verify bearer (.resource (audienceOf app) binding.resource.resource) answer] := by
      simp [Sessionless, Call.UsesSession]
    cases answer with
    | unavailable => exact ensures_pure (accepts_denied (by simpa using hnone))
    | invalid => exact ensures_pure (accepts_denied (by simpa using hnone))
    | verified claims =>
      dsimp only
      split
      · rename_i hall
        refine ensures_pure ⟨by simpa using hnone, ?_⟩
        intro token claims' h
        cases h
        refine ⟨rfl, ?_, by simp [VerifiedFor]⟩
        intro scope hs
        have hin := List.all_eq_true.mp hall scope hs
        cases ho : claims.oauth with
        | none => simp [ho] at hin
        | some oauth => exact ⟨oauth, rfl, by simpa [ho] using hin⟩
      · exact ensures_pure (accepts_denied (by simpa using hnone))

theorem mintFromKey_ensures (bearer requestId : String) :
    Ensures (mintFromKey services app bearer requestId) (Accepts app (VerifiedFor (.app (audienceOf app)))) := by
  unfold mintFromKey
  refine ensures_bind (P := fun answer calls => calls = [.mintFromKey (audienceOf app) bearer requestId answer])
    (ensures_mapError (ensures_ask fun _ => rfl)) ?_
  intro minted calls hcalls
  subst hcalls
  cases minted with
  | refused reason => exact ensures_pure (accepts_denied (by simp [Sessionless, Call.UsesSession]))
  | minted token expiresAt =>
    refine ensures_bind (verify_ensures token _) ?_
    intro answer calls hcalls
    subst hcalls
    cases answer with
    | unavailable => exact ensures_pure (accepts_denied (by simp [Sessionless, Call.UsesSession]))
    | invalid => exact ensures_pure (accepts_denied (by simp [Sessionless, Call.UsesSession]))
    | verified claims =>
      refine ensures_bind (ensures_tell (P := fun _ calls => calls = [_]) rfl) ?_
      intro _ calls hcalls
      subst hcalls
      refine ensures_pure ⟨by simp [Sessionless, Call.UsesSession], ?_⟩
      intro token' claims' h
      cases h
      simp [VerifiedFor]

/-- Calls before it that used no session change nothing. -/
theorem Accepts.after {audience : TokenAudience} {attempt : Attempt} {before calls : List Call}
    (h : Accepts app (VerifiedFor audience) attempt calls) (hb : Sessionless app before) :
    Accepts app (VerifiedFor audience) attempt (before ++ calls) :=
  ⟨(sessionless_append).mpr ⟨hb, h.1⟩, fun token claims he => List.mem_append_right _ (h.2 token claims he)⟩

theorem exchangeKey_ensures (bearer requestId : String) :
    Ensures (exchangeKey services app bearer requestId) (Accepts app (VerifiedFor (.app (audienceOf app)))) := by
  have hget : ∀ answer, Sessionless app [.cacheGet (cacheKey app.id .key bearer) answer] := by
    intro answer
    simp [Sessionless, Call.UsesSession, cacheKey_kind]
  unfold exchangeKey
  split
  · exact ensures_pure (accepts_denied sessionless_nil)
  · refine ensures_bind (P := fun answer calls => calls = [.cacheGet (cacheKey app.id .key bearer) answer])
      (ensures_ask fun _ => rfl) ?_
    intro answer calls hcalls
    subst hcalls
    have hfresh := @mintFromKey_ensures services app bearer requestId
    cases answer with
    | none => exact hfresh.mono fun _ _ ha => ha.after (hget none)
    | some cached =>
      refine ensures_bind (P := fun seconds calls => calls = [.now seconds]) (ensures_ask fun _ => rfl) ?_
      intro seconds calls hcalls
      subst hcalls
      have hnow : Sessionless app [.now seconds] := by simp [Sessionless, Call.UsesSession]
      split
      · refine ensures_bind (verify_ensures cached.token _) ?_
        intro answer calls hcalls
        subst hcalls
        have hverify : Sessionless app [.verify cached.token (.app (audienceOf app)) answer] := by
          simp [Sessionless, Call.UsesSession]
        cases answer with
        | unavailable =>
          exact ensures_pure (((accepts_denied sessionless_nil).after hverify).after hnow |>.after (hget (some cached)))
        | verified claims =>
          refine ensures_pure ⟨?_, ?_⟩
          · exact (sessionless_append).mpr ⟨hget _, (sessionless_append).mpr ⟨hnow, by simpa using hverify⟩⟩
          · intro token claims' h
            cases h
            simp [VerifiedFor]
        | invalid =>
          refine ensures_bind (ensures_tell (P := fun _ calls => calls = [_]) rfl) ?_
          intro _ calls hcalls
          subst hcalls
          refine hfresh.mono fun _ _ ha => ((ha.after ?_).after hverify |>.after hnow).after (hget _)
          simp [Sessionless, Call.UsesSession]
      · exact hfresh.mono fun _ _ ha => (ha.after hnow).after (hget _)

/-! ## The session path -/

/-- What a session attempt accepts: a user's token, verified for the app. -/
def AcceptsUser (app : ProxyApp) (attempt : SessionAttempt) (calls : List Call) : Prop :=
  ∀ token claims, attempt = .accepted token claims → VerifiedFor (.app (audienceOf app)) token claims calls ∧
    claims.ptype = some .user

theorem AcceptsUser.after {attempt : SessionAttempt} {before calls : List Call} (h : AcceptsUser app attempt calls) :
    AcceptsUser app attempt (before ++ calls) :=
  fun token claims he => ⟨List.mem_append_right _ (h token claims he).1, (h token claims he).2⟩

theorem mintFromSession_ensures (session requestId : String) :
    Ensures (mintFromSession services app session requestId) (AcceptsUser app) := by
  unfold mintFromSession
  refine ensures_bind (P := fun _ _ => True) (ensures_mapError (ensures_ask fun _ => trivial)) ?_
  intro minted before _
  cases minted with
  | refused reason =>
    refine ensures_pure ?_
    intro token claims h
    split at h <;> cases h
  | minted token expiresAt =>
    refine ensures_bind (verify_ensures token _) ?_
    intro answer calls hcalls
    subst hcalls
    cases answer with
    | unavailable => exact ensures_pure (fun _ _ h => by cases h)
    | invalid => exact ensures_pure (fun _ _ h => by cases h)
    | verified claims =>
      dsimp only
      split
      · exact ensures_pure (fun _ _ h => by cases h)
      · rename_i huser
        refine ensures_bind (ensures_tell (P := fun _ _ => True) trivial) ?_
        intro _ calls _
        refine ensures_pure ?_
        intro token' claims' h
        cases h
        exact ⟨by simp [VerifiedFor], not_not.mp huser⟩

theorem authorizeSession_ensures (request : ForwardedRequest) :
    Ensures (authorizeSession services app request) (AcceptsUser app) := by
  unfold authorizeSession
  refine ensures_bind (P := fun _ _ => True) (ensures_ask fun _ => trivial) ?_
  intro seconds before _
  split
  · exact ensures_pure (fun _ _ h => by cases h)
  · rename_i session _
    have hfresh := @mintFromSession_ensures services app session request.requestId
    refine ensures_bind (P := fun _ _ => True) (ensures_ask fun _ => trivial) ?_
    intro answer before' _
    cases answer with
    | none => exact hfresh.mono fun _ _ ha => ha.after.after
    | some cached =>
      dsimp only
      split
      · refine ensures_bind (verify_ensures cached.token _) ?_
        intro answer calls hcalls
        subst hcalls
        cases answer with
        | unavailable => exact ensures_pure (fun _ _ h => by cases h)
        | invalid =>
          refine ensures_bind (ensures_tell (P := fun _ _ => True) trivial) ?_
          intro _ calls _
          exact hfresh.mono fun _ _ ha => ha.after.after.after.after
        | verified claims =>
          dsimp only
          split
          · rename_i huser
            refine ensures_pure ?_
            intro token' claims' h
            cases h
            exact ⟨by simp [VerifiedFor], huser⟩
          · refine ensures_bind (ensures_tell (P := fun _ _ => True) trivial) ?_
            intro _ calls _
            exact hfresh.mono fun _ _ ha => ha.after.after.after.after
      · exact hfresh.mono fun _ _ ha => ha.after.after

/-! ## The caller behind a request -/

/-- A bearer that is no platform key, verified for the binding's resource with its scopes. -/
structure OAuthVerified (app : ProxyApp) (binding : OAuthBinding) (request : ForwardedRequest) (token : String)
    (claims : AccessTokenClaims) (calls : List Call) : Prop where
  bearer : (nonBlank (request.headers "Authorization")).bind readBearer = some token
  notKey : Text.startsWith token apiKeyPrefix = false
  scopes : GrantsScopes binding.scopes claims
  verified : VerifiedFor (.resource (audienceOf app) binding.resource.resource) token claims calls

/-- The verifier accepted the token in these calls, for the app or for the row's resource. -/
def Verified (app : ProxyApp) (oauth : Option OAuthBinding) (request : ForwardedRequest) (token : String)
    (claims : AccessTokenClaims) (calls : List Call) : Prop :=
  VerifiedFor (.app (audienceOf app)) token claims calls ∨
    ∃ binding, oauth = some binding ∧ OAuthVerified app binding request token claims calls

/-- What reaching a caller says, `session` telling whether it was by the session cookie. -/
structure CallerOk (app : ProxyApp) (oauth : Option OAuthBinding) (callers : List TokenCaller) (request : ForwardedRequest)
    (crossOrigin : Bool) (token : String) (claims : AccessTokenClaims) (session : Bool) (calls : List Call) : Prop where
  verified : Verified app oauth request token claims calls
  used : session = false → Sessionless app calls
  ofSession : session = true → .human ∈ callers ∧ nonBlank (request.headers "Authorization") = none ∧
    claims.ptype = some .user ∧ crossOrigin = false

/-- An allowance is never how a caller's check ends. -/
def CallerEnds (app : ProxyApp) (oauth : Option OAuthBinding) (callers : List TokenCaller) (request : ForwardedRequest)
    (crossOrigin : Bool) (answer : EndpointCaller) (calls : List Call) : Prop :=
  match answer with
  | .caller token claims session => CallerOk app oauth callers request crossOrigin token claims session calls
  | .ended decision => ∀ allowance, decision ≠ .allow allowance

theorem loginDecision_ensures (request : ForwardedRequest) (reason : DenyReason) :
    Ensures (loginDecision services app request reason) fun decision _ => ∀ allowance, decision ≠ .allow allowance := by
  unfold loginDecision
  refine ensures_bind (P := fun _ _ => True) (ensures_ask fun _ => trivial) ?_
  intro handoff calls _
  exact ensures_pure (fun _ h => by cases h)

theorem keyAttempt_ensures (bearer : Option String) (requestId : String) :
    Ensures (keyAttempt services app bearer requestId) (Accepts app (VerifiedFor (.app (audienceOf app)))) := by
  cases bearer with
  | none => exact ensures_pure (accepts_denied sessionless_nil)
  | some bearer => exact exchangeKey_ensures bearer requestId

theorem callerEnds_accepted {callers : List TokenCaller} {crossOrigin : Bool} (hs : Sessionless app calls)
    (hv : Verified app oauth request token claims calls) :
    Ensures (pure (.caller token claims false) : Program EndpointCaller)
      (fun answer calls' => CallerEnds app oauth callers request crossOrigin answer (calls ++ calls')) := by
  refine ensures_pure ⟨?_, fun _ => ?_, fun h => by cases h⟩
  · simpa using hv
  · simpa using hs

theorem endpointCaller_ensures (oauth : Option OAuthBinding) (callers : List TokenCaller) (request : ForwardedRequest)
    (crossOrigin : Bool) :
    Ensures (endpointCaller services app oauth callers request crossOrigin)
    (CallerEnds app oauth callers request crossOrigin) := by
  unfold endpointCaller
  cases hauth : nonBlank (request.headers "Authorization") with
  | some authorization =>
    dsimp only
    split
    · rename_i binding hb
      refine ensures_bind (verifyOAuthBearer_ensures binding (readBearer authorization)) ?_
      intro attempt calls ha
      cases attempt with
      | denied denial => exact ensures_pure (fun _ h => by cases h)
      | accepted token claims =>
        obtain ⟨hbearer, hscopes, hver⟩ := ha.2 token claims rfl
        refine callerEnds_accepted ha.1 (Or.inr ⟨binding, rfl, ?_, ?_, hscopes, hver⟩)
        · rw [hauth]; exact hbearer
        · rw [hbearer] at hb
          exact Bool.eq_false_iff.mpr (by simpa using hb)
    · refine ensures_bind (keyAttempt_ensures (readBearer authorization) request.requestId) ?_
      intro attempt calls ha
      cases attempt with
      | denied denial => exact ensures_pure (fun _ h => by cases h)
      | accepted token claims => exact callerEnds_accepted ha.1 (Or.inl (ha.2 token claims rfl))
  | none =>
    dsimp only
    split
    · exact ensures_pure (fun _ h => by cases h)
    · rename_i hcond
      simp only [Bool.or_eq_true, Bool.not_eq_true', not_or, Bool.not_eq_false, Bool.not_eq_true] at hcond
      refine ensures_bind (authorizeSession_ensures request) ?_
      intro attempt calls ha
      cases attempt with
      | accepted token claims =>
        obtain ⟨hver, huser⟩ := ha token claims rfl
        refine ensures_pure ⟨Or.inl (by simpa using hver), fun h => (by cases h), fun _ => ⟨?_, hauth, huser, hcond.2⟩⟩
        simpa using hcond.1
      | unavailable => exact ensures_pure (fun _ h => by cases h)
      | refused reason => exact ensures_pure (fun _ h => by cases h)
      | miss reason =>
        refine ensures_bind (loginDecision_ensures request reason) ?_
        intro decision calls' hd
        exact ensures_pure hd

/-! ## The row -/

/-- What an allowance of a credentialed row says. -/
def Admitted (app : ProxyApp) (row : ManifestEndpointRow) (requirement : EndpointRequirement) (request : ForwardedRequest)
    (crossOrigin : Option String) (allowance : Allowance) (calls : List Call) : Prop :=
  ∃ oauth token claims kind, oauthBindingOf app row = some oauth ∧ allowance.token = some token ∧
    Verified app oauth request token claims calls ∧ callerOf claims = some kind ∧ kind ∈ row.callers ∧
    callerAdmittedAt kind row.path = true ∧ satisfies requirement claims.perms = true ∧
    (¬ Sessionless app calls → .human ∈ row.callers ∧ nonBlank (request.headers "Authorization") = none ∧
      claims.ptype = some .user ∧ crossOrigin = none ∧
      (request.method = "GET" ∨ request.headers "Sec-Fetch-Site" = some "same-origin"))

theorem rowDelegation_ensures (row : ManifestEndpointRow) (token requestId : String) :
    Ensures (rowDelegation services app row token requestId) fun _ calls => Sessionless app calls := by
  unfold rowDelegation
  split
  · exact ensures_pure sessionless_nil
  · unfold obtainDelegation
    split
    · exact ensures_pure sessionless_nil
    · rename_i issuer _
      refine ensures_bind (P := fun grant calls => calls = [.requestDelegation (audienceOf app) token requestId row.id grant])
        (ensures_mapError (ensures_ask fun _ => rfl)) ?_
      intro grant calls hcalls
      subst hcalls
      exact ensures_pure (by simp [Sessionless, Call.UsesSession])

theorem Verified.before {after : List Call} (h : Verified app oauth request token claims calls) :
    Verified app oauth request token claims (calls ++ after) := by
  rcases h with h | ⟨binding, hb, h⟩
  · exact Or.inl (List.mem_append_left _ h)
  · exact Or.inr ⟨binding, hb, h.bearer, h.notKey, h.scopes, List.mem_append_left _ h.verified⟩

theorem decideCaller_ensures {row : ManifestEndpointRow} {requirement : EndpointRequirement} {crossOrigin : Option String}
    {session : Bool} (hoauth : oauthBindingOf app row = some oauth)
    (h : CallerOk app oauth row.callers request crossOrigin.isSome token claims session calls) :
    Ensures (decideCaller services app row requirement oauth request crossOrigin token claims session) fun decision after =>
      ∀ allowance, decision = .allow allowance →
        Admitted app row requirement request crossOrigin allowance (calls ++ after) := by
  unfold decideCaller
  split
  · exact ensures_pure (fun _ he => by cases he)
  · rename_i kind hkind
    simp only [Option.filter_eq_some_iff, Bool.and_eq_true, List.contains_iff_mem] at hkind
    split
    · exact ensures_pure (fun _ he => by cases he)
    · rename_i hsat
      split
      · exact ensures_pure (fun _ he => by cases he)
      · rename_i hsite
        split
        · exact ensures_pure (fun _ he => by cases he)
        · refine ensures_bind (rowDelegation_ensures row token request.requestId) ?_
          intro grant after hafter
          cases grant with
          | none => exact ensures_pure (fun _ he => by cases he)
          | some grant =>
            refine ensures_pure ?_
            intro allowance he
            cases he
            rw [List.append_nil]
            refine ⟨oauth, token, claims, kind, hoauth, rfl, h.verified.before, hkind.1, hkind.2.1, hkind.2.2,
              by simpa using hsat, ?_⟩
            intro hused
            -- The calls past the caller's use no session, so the caller's did.
            have hsession : session = true := by
              cases hs : session with
              | true => rfl
              | false => exact absurd ((sessionless_append).mpr ⟨h.used hs, hafter⟩) hused
            obtain ⟨hhuman, hauth, huser, hcross⟩ := h.ofSession hsession
            refine ⟨hhuman, hauth, huser, by simpa using hcross, ?_⟩
            by_contra hno
            simp only [not_or] at hno
            exact hsite (by simp [hsession, hno.1, hno.2])

/-! ## The decision -/

/-- What an allowance of the selected row says. -/
def AllowedBy (app : ProxyApp) (row : ManifestEndpointRow) (request : ForwardedRequest) (allowance : Allowance)
    (calls : List Call) : Prop :=
  (row.requirement = none ∧ allowance.token = none) ∨
    ∃ requirement, row.requirement = some requirement ∧
      Admitted app row requirement request (crossOriginOf app row request) allowance calls

theorem decideRow_ensures (row : ManifestEndpointRow) (request : ForwardedRequest) :
    Ensures (decideRow services app row request (crossOriginOf app row request)) fun decision calls =>
      ∀ allowance, decision = .allow allowance → AllowedBy app row request allowance calls := by
  unfold decideRow
  cases hreq : row.requirement with
  | none =>
    dsimp only
    split
    · exact ensures_pure (fun _ he => by cases he)
    · refine ensures_pure ?_
      intro allowance he
      cases he
      exact Or.inl ⟨hreq, rfl⟩
  | some requirement =>
    dsimp only
    cases hoauth : oauthBindingOf app row with
    | none => exact ensures_pure (fun _ he => by cases he)
    | some oauth =>
      refine ensures_bind (endpointCaller_ensures oauth row.callers request _) ?_
      intro answer calls hcaller
      cases answer with
      | ended decision => exact ensures_pure (fun allowance he => absurd he (hcaller allowance))
      | caller token claims session =>
        refine (decideCaller_ensures hoauth hcaller).mono ?_
        intro decision after hd allowance he
        exact Or.inr ⟨requirement, hreq, hd allowance he⟩

theorem decidePreflight_not_allow {table : CompiledEndpointTable ManifestEndpointRow} {decision : Decision}
    (h : decidePreflight table app request = some decision) (allowance : Allowance) : decision ≠ .allow allowance := by
  unfold decidePreflight at h
  split at h
  · split at h
    · cases h
    · split at h
      · cases h; exact fun he => by cases he
      · cases h; exact fun he => by cases he
      · split at h
        · cases h; exact fun he => by cases he
        · cases h; exact fun he => by cases he
  · cases h

theorem readable_allow {crossOrigin : Option String} {decision : Decision} {allowance : Allowance}
    (h : readable crossOrigin decision = .allow allowance) : decision = .allow allowance := by
  cases decision with
  | deny denial =>
    simp only [readable] at h
    split at h <;> cases h
  | allow a => exact h
  | preflight o m => exact h
  | login s l r a => exact h

theorem decideEndpoint_ensures (table : CompiledEndpointTable ManifestEndpointRow) (request : ForwardedRequest) :
    Ensures (decideEndpoint services app table request) fun decision calls => ∀ allowance, decision = .allow allowance →
      ∃ row params, planEndpoint table request.method request.rawPath = .endpoint row params ∧
        AllowedBy app row request allowance calls := by
  unfold decideEndpoint
  split
  · rename_i decision hpre
    exact ensures_pure (fun allowance he => absurd he (decidePreflight_not_allow hpre allowance))
  · split
    · exact ensures_pure (fun _ he => by cases he)
    · exact ensures_pure (fun _ he => by cases he)
    · rename_i row params hplan
      refine ensures_bind (decideRow_ensures row request) ?_
      intro decision calls hd
      refine ensures_pure ?_
      intro allowance he
      rw [List.append_nil]
      exact ⟨row, params, hplan, hd allowance (readable_allow he)⟩

end

/-- Whatever the services answer or throw, `authorize` allows a request only on a row the
    table selected for it: an anonymous row without a token, or a row with a token the
    verifier accepted in this call, whose caller, path and permissions the row admits. Where
    a session was used, the row admits people, no `Authorization` came with the request, the
    token is a user's, no cross-origin form admitted the origin, and the request is a `GET`
    or the app's own. -/
theorem authorize_allow (services : Services) (app : ProxyApp) (table : CompiledEndpointTable ManifestEndpointRow)
    (request : ForwardedRequest) (log log' : List Call) (allowance : Allowance)
    (h : authorize services app table request log = (.allow allowance, log')) :
    ∃ calls row params, log' = log ++ calls ∧ planEndpoint table request.method request.rawPath = .endpoint row params ∧
      AllowedBy app row request allowance calls := by
  unfold authorize at h
  split at h
  · rename_i decision log₁ hrun
    cases h
    obtain ⟨calls, hl, hd⟩ := decideEndpoint_ensures table request log _ _ hrun
    obtain ⟨row, params, hplan, hallowed⟩ := hd allowance rfl
    exact ⟨calls, row, params, hl, hplan, hallowed⟩
  · cases h
  · cases h

/-! ## A session's request -/

def readerClaims : AccessTokenClaims :=
  ⟨"https://iam", "notes@prod", "p1", 0, 300, [⟨"note.read", none⟩], some .user, none, none⟩

def notesApp : ProxyApp := ⟨"notes@prod", "https", false, none, [], []⟩

def notesRow : ManifestEndpointRow :=
  ⟨"notes.list", .query, .get, "/notes", [.human], some (.action ⟨"note.read", .over "note"⟩), none, none, false, none,
    none, "sha256:0"⟩

def notesTable : CompiledEndpointTable ManifestEndpointRow := ⟨[⟨notesRow, [.literal "notes"]⟩], []⟩

/-- An IAM that mints one token and a verifier that accepts it, with an empty cache. -/
def oneReader : Services where
  cacheGet _ _ := .ok none
  now _ := .ok 0
  mintToken _ _ _ _ := .ok (.minted "token" 300)
  mintFromKey _ _ _ _ := .error .iamUnavailable
  requestDelegation := none
  verify _ token _ := .ok (if token = "token" then .verified readerClaims else .invalid)
  createHandoffAttempt _ := .ok ⟨"state", "verifier", "challenge"⟩
  loginUrl _ url _ := url

def sessionRequest : ForwardedRequest where
  method := "GET"
  url := "https://notes.example/notes"
  host := "notes.example"
  rawPath := "/notes"
  headers name := if name = "Cookie" then some "__Host-px_session=s" else none
  requestId := "r1"

def sessionAllowance : Allowance := ⟨some "token", some "p1", "notes.list@sha256:0", none, none, false⟩

def sessionCalls : List Call :=
  [.now 0, .cacheGet "notes@prod\x00session\x00s" none, .mintToken "notes@prod" "s" "r1" (.minted "token" 300),
    .verify "token" (.app "notes@prod") (.verified readerClaims), .cacheSet "notes@prod\x00session\x00s" ⟨"token", 300⟩]

theorem session_request_allowed :
    authorize oneReader notesApp notesTable sessionRequest [] = (.allow sessionAllowance, sessionCalls) ∧
      ∃ calls row params, sessionCalls = [] ++ calls ∧
        planEndpoint notesTable "GET" "/notes" = .endpoint row params ∧
        AllowedBy notesApp row sessionRequest sessionAllowance calls := by
  have hrun : authorize oneReader notesApp notesTable sessionRequest [] = (.allow sessionAllowance, sessionCalls) := by
    decide
  exact ⟨hrun, authorize_allow oneReader notesApp notesTable sessionRequest [] sessionCalls sessionAllowance hrun⟩

end Fabrika.Proxy
