/-
  Fabrika.Iam.OAuth — authorization codes, refresh tokens and the grants they belong to:
  iam/src/oauth.ts and repositories/oauth.ts.

  Each statement and each batch is one step; a use case that reads, awaits and writes is a job whose
  next step may come at any later time, or never. The row a token's hash addresses stands for the
  token, and a new row's number is fresh. `Reads` is what `grantAuthority` finds around the grant
  when it reads; what `establishClient` and the authorization page check only refuses.
-/

import Fabrika.Iam.Narrow
import Mathlib.Logic.Function.Basic

namespace Fabrika.Iam.OAuth

open Fabrika.AuthCore Fabrika.Iam.Narrow

/-! ## Rows -/

/-- `OAuthGrantRow`. -/
structure Grant where
  principalId : String
  sessionId : String
  clientId : String
  app : String
  resource : String
  scopes : List String
  expiresAt : Nat
  revoked : Bool
  deriving DecidableEq

/-- `OAuthCodeRow`. -/
structure Code where
  grantId : Nat
  redirectUri : String
  challenge : String
  expiresAt : Nat
  used : Bool
  deriving DecidableEq

/-- `OAuthRefreshTokenRow`. -/
structure RefreshToken where
  grantId : Nat
  expiresAt : Nat
  used : Bool
  deriving DecidableEq

abbrev Table (α : Type) := Nat → Option α

/-! ## What a grant still means -/

def isScopeChar (c : Char) : Bool := c == '!' || ('#' ≤ c && c ≤ '[') || (']' ≤ c && c ≤ '~')

/-- RFC 6749 scope-token syntax; duplicates and empty sets are refused. -/
def parseOAuthScopes (scopes : List String) : Option (List String) :=
  if scopes ≠ [] ∧ scopes.length ≤ 64 ∧ scopes.Nodup ∧
      scopes.all fun scope => scope.toList ≠ [] ∧ scope.length ≤ 200 ∧ scope.toList.all isScopeChar then some scopes
  else none

structure OAuthResource where
  resource : String
  app : String
  scopeGrants : List (String × List KeyGrant)

structure OAuthConfig where
  resources : List OAuthResource
  clients : List String

structure SessionRow where
  app : Option String
  principalId : String
  /-- `sessionUsable`. -/
  usable : Bool

structure PrincipalRow where
  id : String
  isUser : Bool
  active : Bool

/-- One `(action, scope)` a principal holds and until when; `none` is no deadline. -/
structure HeldEntry where
  action : String
  scope : Option Scope
  until_ : Option Nat

structure ResolvedAuthority where
  permissions : List ResolvedEntry
  supports : List HeldEntry

/-- The configuration and the rows `grantAuthority` reads. -/
structure Reads where
  config : Option OAuthConfig
  session : Option SessionRow
  principal : Option PrincipalRow
  live : ResolvedAuthority

/-- The union of the scopes' grants, or none when a scope is no longer configured. -/
def scopeCeiling (resource : OAuthResource) : List String → Option (List KeyGrant)
  | [] => some []
  | scope :: rest =>
    match resource.scopeGrants.find? (·.1 = scope) with
    | none => none
    | some entry => (scopeCeiling resource rest).map (entry.2 ++ ·)

/-- Whether the held entry supports the carried one. -/
def supports (held : HeldEntry) (entry : PermissionEntry) : Bool :=
  (held.scope = none ∨ (entry.scope ≠ none ∧ held.scope = entry.scope)) && matchAction held.action entry.action

/-- The inner loop of `authorityDeadline`: `none` while nothing supports the entry, `some none`
    once something without a deadline does. -/
def latestSupport (entry : PermissionEntry) : Option (Option Nat) → List HeldEntry → Option (Option Nat)
  | latest, [] => latest
  | latest, held :: rest =>
    if !supports held entry then latestSupport entry latest rest
    else match held.until_, latest with
      | none, _ => latestSupport entry (some none) rest
      | some _, some none => latestSupport entry (some none) rest
      | some t, none => latestSupport entry (some (some t)) rest
      | some t, some (some l) => latestSupport entry (some (some (max l t))) rest

/-- When the first of the carried permissions to lose its support loses it. -/
def authorityDeadline (held : List HeldEntry) (now : Nat) : Option Nat → List PermissionEntry → Option Nat
  | deadline, [] => deadline
  | deadline, entry :: rest =>
    match (latestSupport entry none held).getD (some now), deadline with
    | none, deadline => authorityDeadline held now deadline rest
    | some t, none => authorityDeadline held now (some t) rest
    | some t, some d => authorityDeadline held now (some (if t < d then t else d)) rest

structure Authority where
  principalId : String
  scopes : List String
  permissions : List ResolvedEntry
  expiresAt : Option Nat

def grantAuthority (read : Reads) (grant : Grant) (now : Nat) : Option Authority := do
  let config ← read.config
  guard (grant.revoked = false ∧ now < grant.expiresAt)
  let resource ← config.resources.find? fun entry => entry.resource = grant.resource ∧ entry.app = grant.app
  guard (grant.clientId ∈ config.clients)
  let scopes ← parseOAuthScopes grant.scopes
  let ceiling ← scopeCeiling resource scopes
  let session ← read.session
  guard (session.app = none ∧ session.principalId = grant.principalId ∧ session.usable = true)
  let principal ← read.principal
  guard (principal.id = grant.principalId ∧ principal.isUser = true ∧ principal.active = true)
  let permissions := narrowPermissions read.live.permissions ceiling
  some ⟨principal.id, scopes, permissions, authorityDeadline read.live.supports now none (entriesOf permissions)⟩

/-! ## Jobs and runs -/

/-- The row an exchange spent, with what a code's redemption presents beside it. -/
inductive Spent
  | code (row : Code) (verifier redirectUri : String)
  | refreshToken (row : RefreshToken)

/-- An exchange that spent the row `token`. -/
structure Exchange where
  token : Nat
  spent : Spent
  clientId : String
  resource : String
  /-- The client's metadata lists `refresh_token`. -/
  refreshes : Bool
  now : Nat

def Spent.grantId : Spent → Nat
  | .code row _ _ => row.grantId
  | .refreshToken row => row.grantId

inductive Job
  /-- An exchange that found no code, or no refresh token, to spend, before it looks for a spent one. -/
  | replayedCode (token : Nat)
  | replayedRefreshToken (token : Nat)
  /-- A revocation behind the row it found, before its grant is read. -/
  | revoked (grantId : Nat) (clientId : String) (subject : Option String)
  | revoking (grantId : Nat)
  | spent (x : Exchange)
  /-- Behind `grantAuthority`, before the grant is read once more. -/
  | authorized (x : Exchange) (grant : Grant) (read : Reads) (authority : Authority)
  /-- Behind that second read: nothing that happens to the grant is seen any more. -/
  | signing (x : Exchange) (grant : Grant) (read : Reads) (authority : Authority)
  /-- A signed answer whose refresh token is not stored yet. -/
  | inserting (x : Exchange) (grant : Grant)

/-- What `mintForGrant` signs. -/
structure AccessToken where
  app : String
  resource : String
  subject : String
  clientId : String
  scopes : List String
  permissions : List ResolvedEntry
  expiresAt : Nat

/-- A token signed for an exchange, and what was read for it. -/
structure Minted where
  x : Exchange
  read : Reads
  access : AccessToken

/-- A grant and its code as they were created. -/
structure Consent where
  grant : Grant
  code : Code

structure World where
  grants : Table Grant
  codes : Table Code
  refreshTokens : Table RefreshToken
  jobs : Table Job
  /-- Numbers below are used. -/
  nextId : Nat
  /-- The grants ever given, and the tokens signed. -/
  consents : Table Consent
  minted : List Minted

def init : World := ⟨fun _ => none, fun _ => none, fun _ => none, fun _ => none, 0, fun _ => none, []⟩

inductive Event
  /-- `grantAuthorization`. -/
  | createGrant (grant : Grant) (redirectUri challenge : String) (now : Nat)
  | consumeCode (token : Nat) (verifier redirectUri clientId resource : String) (refreshes : Bool) (now : Nat)
  | consumeRefreshToken (token : Nat) (clientId resource : String) (now : Nat)
  | lookUp (job : Nat)
  | readGrant (job : Nat) (read : Reads)
  | readAgain (job : Nat)
  /-- `signResourceToken`, and whether the token stays within its bound. -/
  | mint (job : Nat) (bounded : Bool)
  | insertRefreshToken (job : Nat)
  /-- `revokeOAuthToken` finds a refresh token, or verifies an access token. -/
  | revokeByRefreshToken (token : Nat) (clientId : String)
  | revokeByAccessToken (grantId : Nat) (clientId subject : String)
  | readRevoked (job : Nat)
  | revokeGrant (job : Nat)
  /-- `revokeConnection`. -/
  | disconnect (grantId : Nat)
  /-- A session's row goes, and its grants with it. -/
  | deleteSession (sessionId : String)
  | prune (now : Nat)

structure Deps where
  hashToken : String → String
  pkceChallenge : String → String

variable (deps : Deps)

def OAUTH_CODE_TTL_SECONDS : Nat := 60

def DEFAULT_TOKEN_TTL_SECONDS : Nat := 300

/-- The checks of `redeemCode` and `rotateRefreshToken` behind the first read of the grant. -/
def Exchange.accepts (x : Exchange) (grant : Grant) : Bool :=
  grant.clientId = x.clientId && grant.resource = x.resource &&
    match x.spent with
    | .code row verifier redirectUri =>
      deps.hashToken (deps.pkceChallenge verifier) = deps.hashToken row.challenge && x.now < row.expiresAt &&
        row.redirectUri = redirectUri
    | .refreshToken row => x.now < row.expiresAt

def accessToken (x : Exchange) (grant : Grant) (authority : Authority) : AccessToken where
  app := grant.app
  resource := grant.resource
  subject := authority.principalId
  clientId := grant.clientId
  scopes := authority.scopes
  permissions := authority.permissions
  expiresAt := min (min (x.now + DEFAULT_TOKEN_TTL_SECONDS) grant.expiresAt) (authority.expiresAt.getD grant.expiresAt)

def World.setJob (w : World) (n : Nat) (job : Option Job) : World := { w with jobs := Function.update w.jobs n job }

def World.addJob (w : World) (job : Job) : World := { w.setJob w.nextId (some job) with nextId := w.nextId + 1 }

/-- `UPDATE oauth_grants SET revoked_at = ? WHERE id = ?`. -/
def World.revoke (w : World) (grantId : Nat) : World :=
  { w with grants := Function.update w.grants grantId ((w.grants grantId).map fun grant => { grant with revoked := true }) }

def World.ofGrants (w : World) (kept : Grant → Bool) : World :=
  let lives (grantId : Nat) : Bool := (w.grants grantId).any kept
  { w with
    grants := fun id => (w.grants id).filter kept
    codes := fun token => (w.codes token).filter fun row => lives row.grantId
    refreshTokens := fun token => (w.refreshTokens token).filter fun row => lives row.grantId }

def World.act (w : World) : Event → World
  | .createGrant grant redirectUri challenge now =>
    let row : Grant := { grant with revoked := false }
    let code : Code := ⟨w.nextId, redirectUri, challenge, min (now + OAUTH_CODE_TTL_SECONDS) grant.expiresAt, false⟩
    { w with
      grants := Function.update w.grants w.nextId (some row)
      codes := Function.update w.codes (w.nextId + 1) (some code)
      consents := Function.update w.consents w.nextId (some ⟨row, code⟩)
      nextId := w.nextId + 2 }
  | .consumeCode token verifier redirectUri clientId resource refreshes now =>
    match w.codes token with
    | some row =>
      if row.used then w.addJob (.replayedCode token)
      else { w with codes := Function.update w.codes token (some { row with used := true }) }.addJob
        (.spent ⟨token, .code row verifier redirectUri, clientId, resource, refreshes, now⟩)
    | none => w.addJob (.replayedCode token)
  | .consumeRefreshToken token clientId resource now =>
    match w.refreshTokens token with
    | some row =>
      if row.used then w.addJob (.replayedRefreshToken token)
      else { w with refreshTokens := Function.update w.refreshTokens token (some { row with used := true }) }.addJob
        (.spent ⟨token, .refreshToken row, clientId, resource, true, now⟩)
    | none => w.addJob (.replayedRefreshToken token)
  | .lookUp n =>
    match w.jobs n with
    | some (.replayedCode token) => w.setJob n ((w.codes token).map fun row => .revoking row.grantId)
    | some (.replayedRefreshToken token) => w.setJob n ((w.refreshTokens token).map fun row => .revoking row.grantId)
    | _ => w
  | .readGrant n read =>
    match w.jobs n with
    | some (.spent x) =>
      w.setJob n do
        let grant ← w.grants x.spent.grantId
        if x.accepts deps grant then (grantAuthority read grant x.now).map (.authorized x grant read ·) else none
    | _ => w
  | .readAgain n =>
    match w.jobs n with
    | some (.authorized x grant read authority) =>
      w.setJob n (if (w.grants x.spent.grantId).any (!·.revoked) then some (.signing x grant read authority) else none)
    | _ => w
  | .mint n bounded =>
    match w.jobs n with
    | some (.signing x grant read authority) =>
      if bounded then
        { w.setJob n (if x.refreshes then some (.inserting x grant) else none) with
          minted := w.minted ++ [⟨x, read, accessToken x grant authority⟩] }
      else w.setJob n none
    | _ => w
  | .insertRefreshToken n =>
    match w.jobs n with
    | some (.inserting x grant) =>
      -- The row references its grant.
      if (w.grants x.spent.grantId).isSome then
        { w.setJob n none with
          refreshTokens := Function.update w.refreshTokens w.nextId (some ⟨x.spent.grantId, grant.expiresAt, false⟩)
          nextId := w.nextId + 1 }
      else w.setJob n none
    | _ => w
  | .revokeByRefreshToken token clientId =>
    match w.refreshTokens token with
    | some row => w.addJob (.revoked row.grantId clientId none)
    | none => w
  | .revokeByAccessToken grantId clientId subject => w.addJob (.revoked grantId clientId (some subject))
  | .readRevoked n =>
    match w.jobs n with
    | some (.revoked grantId clientId subject) =>
      let owns (grant : Grant) : Bool := grant.clientId = clientId && subject.all (· = grant.principalId)
      w.setJob n (if (w.grants grantId).any owns then some (.revoking grantId) else none)
    | _ => w
  | .revokeGrant n =>
    match w.jobs n with
    | some (.revoking grantId) => (w.setJob n none).revoke grantId
    | _ => w
  | .disconnect grantId => w.revoke grantId
  | .deleteSession sessionId => w.ofGrants fun grant => grant.sessionId ≠ sessionId
  | .prune now =>
    { w with
      codes := fun token => (w.codes token).filter fun row => now < row.expiresAt
      refreshTokens := fun token => (w.refreshTokens token).filter fun row => now < row.expiresAt }

/-- The world after the events, oldest first. -/
def World.after (w : World) (events : List Event) : World := events.foldl (World.act deps) w

end Fabrika.Iam.OAuth
