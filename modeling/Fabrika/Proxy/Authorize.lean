/-
  Fabrika.Proxy.Authorize — authorize.ts of the proxy core, with credentials.ts and what it
  reads of the manifest: one pass over the one endpoint the table selects.

  The verifier, the IAM gateway, the delegation issuer, the token cache, the clock and the
  handoff generator are services (`Services`): each may answer anything, differently each
  time, and throw. The request's headers are a lookup. `authorize` never throws: whatever
  escapes becomes a denial.
-/

import Fabrika.AuthCore.Contract
import Fabrika.Lib.Base64
import Fabrika.Lib.Effect

namespace Fabrika.Proxy

open Fabrika.Lib Fabrika.AuthCore Fabrika.AuthCore.Endpoints

/-! ## Manifest entries and rows -/

inductive RowKind
  | query
  | mutation
  | spa
  | upload
  | download
  | health
  | form
  | webhook
  | linkSpa
  | publicSpa
  | «public»
  | protocol
  | service
  deriving DecidableEq

/-- `ManifestEndpointRow`: a declared row, the ops row or an installation row. A field its
    union arm lacks is `none`; `oauth` holds the scopes of a row that admits `oauth`. -/
structure ManifestEndpointRow where
  id : String
  kind : RowKind
  method : EndpointMethod
  path : String
  callers : List TokenCaller
  requirement : Option EndpointRequirement
  admission : Option BodyAdmission
  crossOrigin : Option CrossOriginForm
  forwardsAuthorization : Bool
  oauth : Option (List String)
  delegation : Option EndpointDelegation
  digest : String
  deriving DecidableEq

instance : EndpointPattern ManifestEndpointRow :=
  ⟨ManifestEndpointRow.id, ManifestEndpointRow.method, ManifestEndpointRow.path⟩

/-- `pathname` is the path of the resource's URI, which the manifest's parser checked. -/
structure OAuthProtectedResource where
  resource : String
  pathname : String
  resourceMetadata : String
  deriving DecidableEq

/-- A contract application, or an installation service. Only the former has an audience or
    listed origins, only the latter OAuth resources. -/
structure ProxyApp where
  id : String
  scheme : String
  installation : Bool
  audience : Option String
  crossOrigins : List String
  oauthResources : List OAuthProtectedResource
  deriving DecidableEq

def audienceOf (app : ProxyApp) : String := app.audience.getD app.id

def isApplicationEntry (app : ProxyApp) : Bool := !app.installation

/-- The registered resource on the row's path. -/
def oauthResourceOfRow (app : ProxyApp) (row : ManifestEndpointRow) : Option OAuthProtectedResource :=
  app.oauthResources.find? fun resource => resource.pathname == row.path

/-! ## Credentials -/

def apiKeyPrefix : String := "px_"

def sessionCookie : String := "__Host-px_session"

/-- The token of `Authorization: Bearer <token>`. -/
def readBearer (header : String) : Option String :=
  let cs := Text.trimChars header.toList
  if (cs.take 6).map Text.lowerChar = "bearer".toList ∧ (cs.drop 6).head?.any Text.isSpace then
    let token := (cs.drop 6).dropWhile Text.isSpace
    if token = [] ∨ token.any Text.isLineTerminator then none else some (String.ofList (Text.trimChars token))
  else none

/-- A single cookie of a raw `Cookie` header. -/
def readCookieParts (name : String) : List String → Option String
  | [] => none
  | part :: rest =>
    match Text.cut '=' part.toList with
    | none => readCookieParts name rest
    | some (before, after) =>
      if Text.trimChars before = name.toList then
        let value := String.ofList (Text.trimChars after)
        if value = "" then none else some value
      else readCookieParts name rest

def readCookie (header : Option String) (name : String) : Option String :=
  header.bind fun header => if header = "" then none else readCookieParts name (Text.split header ';')

/-- Whether an `Authorization` value carries a platform key: as it is, or in Basic
    credentials. -/
def carriesPlatformKey (header keyPrefix : String) : Bool :=
  if Text.includes header keyPrefix then true
  else
    let cs := Text.trimChars header.toList
    let encoded := (cs.drop 5).dropWhile Text.isSpace
    if (cs.take 5).map Text.lowerChar = "basic".toList ∧ (cs.drop 5).head?.any Text.isSpace ∧ encoded ≠ [] ∧
        encoded.all (fun c => (Base64.value c).isSome || c == '=') then
      match Base64.atob (String.ofList encoded) with
      | some decoded => Text.includes decoded keyPrefix
      | none => false
    else false

example : readBearer " bearer  px_k " = some "px_k" ∧ readBearer "Basic px_k" = none ∧ readBearer "Bearer" = none := by decide

example : readCookie (some "a=1; __Host-px_session = s") sessionCookie = some "s" ∧
    carriesPlatformKey "Basic cHhfYTpi" apiKeyPrefix = true := by decide

/-! ## Requests, services and decisions -/

structure ForwardedRequest where
  method : String
  /-- The absolute URL, which the login returns to, and its host. -/
  url : String
  host : String
  rawPath : String
  headers : String → Option String
  requestId : String

inductive DenyReason
  | noCredential
  | invalidKey
  | invalidToken
  | insufficientScope
  | noSession
  | invalidSession
  | unknownPrincipal
  | disabled
  | tokenTooLarge
  | noEndpoint
  | callerKind
  | insufficientPermission
  | crossSite
  | contentType
  | crossOrigin
  | delegationRefused
  | nonCanonicalPath
  | iamUnavailable
  | internalError
  deriving DecidableEq

inductive ChallengeError
  | invalidToken
  | insufficientScope
  deriving DecidableEq

structure OAuthBearerChallenge where
  resourceMetadata : String
  error : Option ChallengeError := none
  scope : Option String := none
  deriving DecidableEq

structure Denial where
  status : Nat
  reason : DenyReason
  challenge : Option OAuthBearerChallenge := none
  crossOrigin : Option String := none
  deriving DecidableEq

structure Allowance where
  /-- The verified token to inject upstream, `none` on an anonymous endpoint. -/
  token : Option String
  subject : Option String
  endpoint : String
  delegation : Option String
  crossOrigin : Option String
  forwardsAuthorization : Bool
  deriving DecidableEq

structure HandoffAttempt where
  state : String
  verifier : String
  challenge : String
  deriving DecidableEq

inductive Decision
  | allow (allowance : Allowance)
  | deny (denial : Denial)
  | preflight (allowOrigin : String) (method : EndpointMethod)
  | login (status : Nat) (location : String) (reason : DenyReason) (handoff : HandoffAttempt)
  deriving DecidableEq

structure CachedToken where
  token : String
  expiresAt : Int
  deriving DecidableEq

/-- `mintToken` and `mintFromKey`: a token, or a decided refusal. -/
inductive MintResult
  | minted (token : String) (expiresAt : Int)
  | refused (reason : DenyReason)
  deriving DecidableEq

inductive TokenAudience
  | app (app : String)
  | resource (app resource : String)
  deriving DecidableEq

inductive VerifyResult
  | verified (claims : AccessTokenClaims)
  | invalid
  | unavailable
  deriving DecidableEq

inductive CredentialKind
  | session
  | key
  deriving DecidableEq

def CredentialKind.text : CredentialKind → String
  | .session => "session"
  | .key => "key"

/-- The parts stand between NUL characters, which no header value holds. -/
def cacheKey (app : String) (kind : CredentialKind) (credential : String) : String :=
  app ++ "\x00" ++ kind.text ++ "\x00" ++ credential

/-- What a service may throw. -/
inductive Failure
  | iamUnavailable
  | other
  deriving DecidableEq

/-- A service call and its answer. -/
inductive Call
  | cacheGet (key : String) (answer : Option CachedToken)
  | cacheSet (key : String) (value : CachedToken)
  | cacheDelete (key : String)
  | now (seconds : Int)
  | mintToken (app session requestId : String) (answer : MintResult)
  | mintFromKey (app key requestId : String) (answer : MintResult)
  | requestDelegation (app credential requestId endpoint : String) (grant : Option String)
  | verify (token : String) (audience : TokenAudience) (answer : VerifyResult)
  | handoff (attempt : HandoffAttempt)
  deriving DecidableEq

/-- The injected services, each a function of the calls made so far. A missing cache is one
    that never answers an entry. -/
structure Services where
  cacheGet : List Call → String → Except Failure (Option CachedToken)
  now : List Call → Except Failure Int
  mintToken : List Call → String → String → String → Except Failure MintResult
  mintFromKey : List Call → String → String → String → Except Failure MintResult
  /-- `none` where no issuer is configured; its answer is a grant or a refusal. -/
  requestDelegation : Option (List Call → String → String → String → String → Except Failure (Option String))
  verify : List Call → String → TokenAudience → Except Failure VerifyResult
  createHandoffAttempt : List Call → Except Failure HandoffAttempt
  /-- The login URL of an app for a return URL, as the runtime's `URL` writes it. -/
  loginUrl : ProxyApp → String → HandoffAttempt → String

abbrev Program := Logged Failure Call

/-! ## Pure checks -/

/-- The `Access-Control-Allow-Origin` of a request from `origin` on the row. -/
def admittedOrigin (app : ProxyApp) (row : ManifestEndpointRow) (origin : String) : Option String :=
  match row.crossOrigin with
  | some .any => some "*"
  | some .environment => if isApplicationEntry app && app.crossOrigins.contains origin then some origin else none
  | none => none

def mediaTypeOf (headers : String → Option String) : String :=
  match headers "Content-Type" with
  | none => ""
  | some value => Text.toLowerCase (Text.trim ((Text.split value ';').headD ""))

/-- An endpoint that admits a body admits only its declared media types. -/
def admitBody (row : ManifestEndpointRow) (headers : String → Option String) : Option Denial :=
  match row.admission with
  | none => none
  | some admission =>
    if admission.contentTypes.contains (mediaTypeOf headers) then none else some { status := 400, reason := .contentType }

def formMultipartType : String := "multipart/form-data"

def preflightlessTypes : List String := [formMultipartType, "application/x-www-form-urlencoded"]

/-- A form that takes files, or a public procedure's request of a preflightless type. -/
def preflightless (row : ManifestEndpointRow) (headers : String → Option String) : Bool :=
  if row.kind = .form then (row.admission.map fun admission => admission.contentTypes.contains formMultipartType).getD false
  else row.kind == .public && preflightlessTypes.contains (mediaTypeOf headers)

def admitFormOrigin (app : ProxyApp) (row : ManifestEndpointRow) (request : ForwardedRequest) (crossOrigin : Option String) :
    Option Denial :=
  match request.headers "Origin" with
  | none => none
  | some origin =>
    if crossOrigin.isSome || !preflightless row request.headers then none
    else if origin = app.scheme ++ "://" ++ request.host then none
    else some { status := 403, reason := .crossOrigin }

/-- The `Authorization` of an anonymous request goes on only on a `protocol` row, and on a row
    that forwards it, never with a platform key. -/
def forwardsAuthorization (row : ManifestEndpointRow) (request : ForwardedRequest) : Bool :=
  match request.headers "Authorization" with
  | none => false
  | some authorization =>
    row.kind == .protocol || (row.forwardsAuthorization && !carriesPlatformKey authorization apiKeyPrefix)

/-- The resource a row that admits `oauth` is bound to, and the scopes it requires. -/
structure OAuthBinding where
  resource : OAuthProtectedResource
  scopes : List String
  deriving DecidableEq

/-- `some none` for a row that does not admit `oauth`, `none` where its resource is not
    registered. -/
def oauthBindingOf (app : ProxyApp) (row : ManifestEndpointRow) : Option (Option OAuthBinding) :=
  match row.oauth with
  | none => some none
  | some scopes =>
    if app.installation then (oauthResourceOfRow app row).map fun resource => some ⟨resource, scopes⟩ else none

def withBearerChallenge (denial : Denial) (oauth : Option OAuthBinding) : Denial :=
  match oauth with
  | none => denial
  | some binding =>
    if denial.status = 401 then
      { denial with challenge := some { resourceMetadata := binding.resource.resourceMetadata, error := some .invalidToken } }
    else if denial.status = 403 then
      { denial with challenge := some { resourceMetadata := binding.resource.resourceMetadata } }
    else denial

def invalidKey : Denial := { status := 401, reason := .invalidKey }

/-- A 302 helps only a document navigation. -/
def isDocumentNavigation (headers : String → Option String) : Bool :=
  match headers "Sec-Fetch-Mode" with
  | none => true
  | some mode => mode == "" || mode == "navigate"

def formatEndpointHeader (id digest : String) : String := id ++ "@" ++ digest

/-! ## The decision -/

section
variable (services : Services)

def cacheGet (key : String) : Program (Option CachedToken) := Logged.ask (services.cacheGet · key) (.cacheGet key)

def now : Program Int := Logged.ask services.now .now

def verify (token : String) (audience : TokenAudience) : Program VerifyResult :=
  Logged.ask (services.verify · token audience) (.verify token audience)

/-- Whatever an IAM call throws becomes `IamUnavailableError`. -/
def callIam {α : Type} (call : Program α) : Program α := Logged.mapError (fun _ => .iamUnavailable) call

def tokenRefreshSkewSeconds : Int := 30

/-- A key, a session or an OAuth token verified, or the denial that ends the request. -/
inductive Attempt
  | accepted (token : String) (claims : AccessTokenClaims)
  | denied (denial : Denial)

/-- An OAuth resource token for the binding's resource, carrying every scope required. -/
def verifyOAuthBearer (app : ProxyApp) (binding : OAuthBinding) (bearer : Option String) : Program Attempt := do
  let challenge : OAuthBearerChallenge := { resourceMetadata := binding.resource.resourceMetadata }
  match bearer with
  | none => return .denied { status := 401, reason := .noCredential, challenge := some challenge }
  | some bearer =>
    match ← verify services bearer (.resource (audienceOf app) binding.resource.resource) with
    | .unavailable => return .denied { status := 503, reason := .iamUnavailable }
    | .invalid =>
      return .denied { status := 401, reason := .invalidToken, challenge := some { challenge with error := some .invalidToken } }
    | .verified claims =>
      let granted := (claims.oauth.map OAuthTokenClaims.scopes).getD []
      if binding.scopes.all granted.contains then return .accepted bearer claims
      else
        return .denied {
          status := 403
          reason := .insufficientScope
          challenge := some { challenge with error := some .insufficientScope, scope := some (" ".intercalate binding.scopes) } }

/-- A fresh exchange of a key, verified before it is cached. -/
def mintFromKey (app : ProxyApp) (bearer requestId : String) : Program Attempt := do
  match ← callIam (Logged.ask (services.mintFromKey · (audienceOf app) bearer requestId)
      (.mintFromKey (audienceOf app) bearer requestId)) with
  | .refused reason => return .denied { status := if reason = .invalidKey then 401 else 403, reason }
  | .minted token expiresAt =>
    match ← verify services token (.app (audienceOf app)) with
    | .unavailable => return .denied { status := 503, reason := .iamUnavailable }
    | .invalid => return .denied invalidKey
    | .verified claims =>
      Logged.tell (.cacheSet (cacheKey app.id .key bearer) ⟨token, expiresAt⟩)
      return .accepted token claims

/-- Exchange a `px_` key for a verified token, through the cache. -/
def exchangeKey (app : ProxyApp) (bearer requestId : String) : Program Attempt := do
  if !Text.startsWith bearer apiKeyPrefix then return .denied invalidKey
  else
    let key := cacheKey app.id .key bearer
    match ← cacheGet services key with
    | none => mintFromKey services app bearer requestId
    | some cached =>
      if cached.expiresAt - (← now services) > tokenRefreshSkewSeconds then
        match ← verify services cached.token (.app (audienceOf app)) with
        | .verified claims => return .accepted cached.token claims
        | .unavailable => return .denied { status := 503, reason := .iamUnavailable }
        -- An entry that proved bad is dropped, and a fresh one minted.
        | .invalid =>
          Logged.tell (.cacheDelete key)
          mintFromKey services app bearer requestId
      else mintFromKey services app bearer requestId

/-- A header that carries no bearer is a refused key. -/
def keyAttempt (app : ProxyApp) (bearer : Option String) (requestId : String) : Program Attempt :=
  match bearer with
  | none => return .denied invalidKey
  | some bearer => exchangeKey services app bearer requestId

/-- The human behind a request, a session that is missing or not usable, a decided refusal,
    or a check that could not be made. -/
inductive SessionAttempt
  | accepted (token : String) (claims : AccessTokenClaims)
  | miss (reason : DenyReason)
  | refused (reason : DenyReason)
  | unavailable

/-- A fresh exchange of a session, verified as a user's before it is cached. -/
def mintFromSession (app : ProxyApp) (session requestId : String) : Program SessionAttempt := do
  match ← callIam (Logged.ask (services.mintToken · (audienceOf app) session requestId)
      (.mintToken (audienceOf app) session requestId)) with
  | .refused reason => return if reason = .tokenTooLarge then .refused reason else .miss reason
  | .minted token expiresAt =>
    match ← verify services token (.app (audienceOf app)) with
    | .unavailable => return .unavailable
    | .invalid => return .miss .invalidSession
    | .verified claims =>
      if claims.ptype ≠ some .user then return .miss .invalidSession
      else
        Logged.tell (.cacheSet (cacheKey app.id .session session) ⟨token, expiresAt⟩)
        return .accepted token claims

def authorizeSession (app : ProxyApp) (request : ForwardedRequest) : Program SessionAttempt := do
  let seconds ← now services
  match readCookie (request.headers "Cookie") sessionCookie with
  | none => return .miss .noSession
  | some session =>
    let key := cacheKey app.id .session session
    match ← cacheGet services key with
    | none => mintFromSession services app session request.requestId
    | some cached =>
      if cached.expiresAt - seconds > tokenRefreshSkewSeconds then
        match ← verify services cached.token (.app (audienceOf app)) with
        | .unavailable => return .unavailable
        | .invalid =>
          Logged.tell (.cacheDelete key)
          mintFromSession services app session request.requestId
        | .verified claims =>
          if claims.ptype = some .user then return .accepted cached.token claims
          else
            Logged.tell (.cacheDelete key)
            mintFromSession services app session request.requestId
      else mintFromSession services app session request.requestId

def loginDecision (app : ProxyApp) (request : ForwardedRequest) (reason : DenyReason) : Program Decision := do
  let handoff ← Logged.ask services.createHandoffAttempt .handoff
  return .login (if isDocumentNavigation request.headers then 302 else 401) (services.loginUrl app request.url handoff)
    reason handoff

/-- Who is behind a request to a credentialed endpoint, or the decision that ends it. -/
inductive EndpointCaller
  | caller (token : String) (claims : AccessTokenClaims) (session : Bool)
  | ended (decision : Decision)

def nonBlank (value : Option String) : Option String := value.filter fun text => Text.trim text != ""

def endpointCaller (app : ProxyApp) (oauth : Option OAuthBinding) (callers : List TokenCaller) (request : ForwardedRequest)
    (crossOrigin : Bool) : Program EndpointCaller := do
  match nonBlank (request.headers "Authorization") with
  | some authorization =>
    let bearer := readBearer authorization
    match oauth, bearer.filter (Text.startsWith · apiKeyPrefix) with
    | some binding, none =>
      match ← verifyOAuthBearer services app binding bearer with
      | .accepted token claims => return .caller token claims false
      | .denied denial => return .ended (.deny denial)
    | _, _ =>
      match ← keyAttempt services app bearer request.requestId with
      | .accepted token claims => return .caller token claims false
      | .denied denial => return .ended (.deny (withBearerChallenge denial oauth))
  | none =>
    if !callers.contains .human || crossOrigin then
      -- No session reaches an endpoint a person may not call, nor one called from another origin.
      return .ended (.deny {
        status := 401
        reason := .noCredential
        challenge := oauth.map fun binding => { resourceMetadata := binding.resource.resourceMetadata } })
    else
      match ← authorizeSession services app request with
      | .accepted token claims => return .caller token claims true
      | .unavailable => return .ended (.deny { status := 503, reason := .iamUnavailable })
      | .refused reason => return .ended (.deny { status := 403, reason })
      | .miss reason => return .ended (← loginDecision services app request reason)

/-- The grant the row spends, `some none` where no issuer is configured; `none` refuses. -/
def obtainDelegation (app : ProxyApp) (endpoint token requestId : String) : Program (Option (Option String)) :=
  match services.requestDelegation with
  | none => return some none
  | some issuer => do
    let grant ← callIam (Logged.ask (issuer · (audienceOf app) token requestId endpoint)
      (.requestDelegation (audienceOf app) token requestId endpoint))
    return match grant with
      | some grant => if grant = "" then none else some (some grant)
      | none => none

/-- A row that spends no grant obtains none. -/
def rowDelegation (app : ProxyApp) (row : ManifestEndpointRow) (token requestId : String) : Program (Option (Option String)) :=
  match row.delegation with
  | none => return some none
  | some _ => obtainDelegation services app row.id token requestId

/-- The checks of a credentialed row past its caller. -/
def decideCaller (app : ProxyApp) (row : ManifestEndpointRow) (requirement : EndpointRequirement) (oauth : Option OAuthBinding)
    (request : ForwardedRequest) (crossOrigin : Option String) (token : String) (claims : AccessTokenClaims)
    (session : Bool) : Program Decision := do
  match (callerOf claims).filter fun kind => row.callers.contains kind && callerAdmittedAt kind row.path with
  | none => return .deny (withBearerChallenge { status := 403, reason := .callerKind } oauth)
  | some _ =>
    if !satisfies requirement claims.perms then return .deny { status := 403, reason := .insufficientPermission }
    else if session && request.method != "GET" && request.headers "Sec-Fetch-Site" != some "same-origin" then
      return .deny { status := 403, reason := .crossSite }
    else
      match admitBody row request.headers with
      | some denial => return .deny denial
      | none =>
        match ← rowDelegation services app row token request.requestId with
        | none => return .deny { status := 403, reason := .delegationRefused }
        | some grant =>
          return .allow {
            token := some token
            subject := some claims.sub
            endpoint := formatEndpointHeader row.id row.digest
            delegation := grant
            crossOrigin
            forwardsAuthorization := false }

def decideRow (app : ProxyApp) (row : ManifestEndpointRow) (request : ForwardedRequest) (crossOrigin : Option String) :
    Program Decision := do
  match row.requirement with
  | none =>
    match admitBody row request.headers <|> admitFormOrigin app row request crossOrigin with
    | some denial => return .deny denial
    | none =>
      return .allow {
        token := none
        subject := none
        endpoint := formatEndpointHeader row.id row.digest
        delegation := none
        crossOrigin
        forwardsAuthorization := forwardsAuthorization row request }
  | some requirement =>
    match oauthBindingOf app row with
    | none => return .deny { status := 403, reason := .internalError }
    | some oauth =>
      -- A listed origin's request is never session-authenticated.
      match ← endpointCaller services app oauth row.callers request crossOrigin.isSome with
      | .ended decision => return decision
      | .caller token claims session =>
        decideCaller services app row requirement oauth request crossOrigin token claims session

/-- A preflight is decided from the endpoint the requested method selects, before any
    credential; only a contract application's. -/
def decidePreflight (table : CompiledEndpointTable ManifestEndpointRow) (app : ProxyApp) (request : ForwardedRequest) :
    Option Decision :=
  match request.headers "Origin", request.headers "Access-Control-Request-Method" with
  | some origin, some method =>
    if !isApplicationEntry app || request.method != "OPTIONS" then none
    else match planEndpoint table method request.rawPath with
      | .nonCanonical => some (.deny { status := 400, reason := .nonCanonicalPath })
      | .noEndpoint => some (.deny { status := 403, reason := .noEndpoint })
      | .endpoint row _ =>
        match admittedOrigin app row origin with
        | none => some (.deny { status := 403, reason := .crossOrigin })
        | some allowOrigin => some (.preflight allowOrigin row.method)
  | _, _ => none

/-- The origin the row admits, of a request that names one. -/
def crossOriginOf (app : ProxyApp) (row : ManifestEndpointRow) (request : ForwardedRequest) : Option String :=
  (request.headers "Origin").bind (admittedOrigin app row)

/-- A denial on an admitted origin says so, so that the page can read it. -/
def readable (crossOrigin : Option String) : Decision → Decision
  | .deny denial => if crossOrigin.isSome then .deny { denial with crossOrigin } else .deny denial
  | decision => decision

def decideEndpoint (app : ProxyApp) (table : CompiledEndpointTable ManifestEndpointRow) (request : ForwardedRequest) :
    Program Decision := do
  match decidePreflight table app request with
  | some decision => return decision
  | none =>
    match planEndpoint table request.method request.rawPath with
    | .nonCanonical => return .deny { status := 400, reason := .nonCanonicalPath }
    | .noEndpoint => return .deny { status := 403, reason := .noEndpoint }
    | .endpoint row _ =>
      let crossOrigin := crossOriginOf app row request
      return readable crossOrigin (← decideRow services app row request crossOrigin)

/-- Decide one request. Never throws. -/
def authorize (app : ProxyApp) (table : CompiledEndpointTable ManifestEndpointRow) (request : ForwardedRequest)
    (log : List Call) : Decision × List Call :=
  match (decideEndpoint services app table request).run log with
  | (.ok decision, log') => (decision, log')
  | (.error .iamUnavailable, log') => (.deny { status := 503, reason := .iamUnavailable }, log')
  | (.error .other, log') => (.deny { status := 403, reason := .internalError }, log')

end

end Fabrika.Proxy
