/-
  Fabrika.AuthCore.TokenReadings — the claims of a verified token as permissions.ts and
  requirement.ts read them.

  `Token` has the claims as a payload holds them, each text its code units; the readers compare
  texts of characters and take less of a token. `AccessTokenClaims.read` is what they are given: a
  text with no lone surrogate as it is (`read_written`). So what IAM resolved is what they decide
  on (`permissions_survive`), and a token presents the caller of its kind (`callerOf_read`).
-/

import Fabrika.AuthCore.Permissions
import Fabrika.AuthCore.TokenProofs
import Fabrika.Lib.Utf16

namespace Fabrika.AuthCore.Token

open Fabrika.Lib
open Fabrika.Lib.Double (Number)

/-! ## Code units read as texts -/

def Scope.read (scope : Scope) : AuthCore.Scope := ⟨usvString scope.type, usvString scope.value⟩

def PermissionSource.read : PermissionSource → AuthCore.PermissionSource
  | .grant => .grant
  | .bootstrap => .bootstrap
  | .terminal => .terminal
  | .group ref => .group (usvString ref)

def PermissionEntry.read (entry : PermissionEntry) : ResolvedEntry :=
  ⟨⟨usvString entry.action, entry.scope.map Scope.read⟩, entry.source.read⟩

def TokenPrincipalType.read : TokenPrincipalType → AuthCore.TokenPrincipalType
  | .user => .user
  | .service => .service
  | .workload .job => .job
  | .workload .webhook => .webhook
  | .workload .public_ => .public
  | .workload .app => .app

def OAuthTokenClaims.read (oauth : OAuthTokenClaims) : AuthCore.OAuthTokenClaims where
  app := usvString oauth.app
  clientId := usvString oauth.clientId
  scopes := oauth.scopes.map usvString
  grantId := usvString oauth.grantId
  tokenId := usvString oauth.tokenId

/-- `seconds` is a time in whole seconds. -/
def AccessTokenClaims.read (seconds : Number → Int) (claims : AccessTokenClaims) : AuthCore.AccessTokenClaims where
  iss := usvString claims.iss
  aud := usvString claims.aud
  sub := usvString claims.sub
  iat := seconds claims.iat
  exp := seconds claims.exp
  perms := entriesOf (claims.perms.map PermissionEntry.read)
  ptype := claims.ptype.map TokenPrincipalType.read
  workload := claims.workload.map usvString
  oauth := claims.oauth.map OAuthTokenClaims.read

/-! ## What IAM resolved -/

def writtenScope (scope : AuthCore.Scope) : Scope := ⟨codeUnits scope.type, codeUnits scope.value⟩

def writtenSource : AuthCore.PermissionSource → PermissionSource
  | .grant => .grant
  | .bootstrap => .bootstrap
  | .terminal => .terminal
  | .group ref => .group (codeUnits ref)

/-- An entry as the signer is given it. -/
def written (resolved : ResolvedEntry) : PermissionEntry :=
  ⟨codeUnits resolved.entry.action, resolved.entry.scope.map writtenScope, writtenSource resolved.source⟩

theorem read_writtenScope (scope : AuthCore.Scope) : (writtenScope scope).read = scope := by
  rw [writtenScope, Scope.read, usvString_codeUnits, usvString_codeUnits]

theorem read_writtenSource (source : AuthCore.PermissionSource) : (writtenSource source).read = source := by
  cases source with
  | grant => rfl
  | bootstrap => rfl
  | terminal => rfl
  | group ref => rw [writtenSource, PermissionSource.read, usvString_codeUnits]

theorem read_written (resolved : ResolvedEntry) : (written resolved).read = resolved := by
  have hscope : (resolved.entry.scope.map writtenScope).map Scope.read = resolved.entry.scope := by
    rw [Option.map_map]
    cases resolved.entry.scope with
    | none => rfl
    | some scope => exact congrArg some (read_writtenScope scope)
  rw [written, PermissionEntry.read, usvString_codeUnits, hscope, read_writtenSource]

section
variable {P : Platform}

variable {claims : AccessTokenClaims}

variable (seconds : Number → Int)

/-- The token of a person, a service, a workload or a link is read back to the entries it was
    minted with: each reader of the permissions decides on those. -/
theorem permissions_survive {params : AccessTokenParams} {resolved : List ResolvedEntry}
    (hperms : params.permissions = resolved.map written) (htyped : params.Typed)
    (hbuild : buildAccessClaims P params = .ok claims) (hiat : IsFinite params.issuedAt) (hexp : IsFinite params.expiresAt)
    (hlink : ∀ link ∈ params.link, link.mount ≠ [] ∧ link.chain ≠ []) :
    ∃ parsed, parseOnWire P claims.json = some parsed ∧ (parsed.read seconds).perms = entriesOf resolved := by
  have hparsed := parseOnWire_built (built_of_build hbuild hiat hexp hlink) (typed_of_build hbuild htyped)
  have hkept := congrArg AccessTokenClaims.perms (claims_of_build hbuild)
  refine ⟨claims.onWire, hparsed, ?_⟩
  show entriesOf (claims.perms.map PermissionEntry.read) = entriesOf resolved
  rw [hkept]
  dsimp only
  rw [hperms, List.map_map]
  exact congrArg entriesOf (List.map_id'' read_written resolved)

/-! ## The caller a token presents -/

/-- A resource token presents its client, an application's connector that application, and a
    link's token the link. -/
theorem callerOf_read {payload : Payload} (h : parseAccessClaims P payload = some claims) :
    (claims.oauth.isSome = true → callerOf (claims.read seconds) = some .oauth) ∧
      (claims.link.isSome = true → callerOf (claims.read seconds) = some .link) ∧
      (claims.ptype = some (.workload .app) →
        ∃ name, claims.workload = some name ∧ callerOf (claims.read seconds) = some (.app (usvString name))) := by
  have hparses := parses_of_parse h
  have hexclusive := exclusive_of_parses hparses
  refine ⟨?_, ?_, ?_⟩
  · intro hoauth
    have hread : (claims.read seconds).oauth.isSome = true := by simpa [AccessTokenClaims.read] using hoauth
    rw [callerOf, if_pos hread]
  · intro hlink
    obtain ⟨hptype, hoauth⟩ := hparses.linkOnly hlink
    simp [callerOf, AccessTokenClaims.read, hptype, hoauth]
  · intro hptype
    have hoauth : claims.oauth = none := by
      by_contra hsome
      have huser := (hparses.oauthOnly (Option.isSome_iff_ne_none.mpr hsome)).1
      rw [hptype] at huser
      cases huser
    have hnamed : claims.workload.isSome = true := by
      rw [hexclusive.workloadKind, hptype]
      rfl
    obtain ⟨name, hname⟩ := Option.isSome_iff_exists.mp hnamed
    refine ⟨name, hname, ?_⟩
    simp [callerOf, AccessTokenClaims.read, TokenPrincipalType.read, hptype, hoauth, hname]

end

end Fabrika.AuthCore.Token
