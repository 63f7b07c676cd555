/-
  Fabrika.AuthCore.Token — the claims of an IAM access token (auth-core/token.ts), with the OAuth
  checks (oauth.ts), the mailbox check (membership.ts) and the workload names (workloads.ts) they
  rest on.

  One side builds claims and signs them; the other parses a verified payload back. A payload is a
  JSON value and a text its code units: a lone surrogate crosses the wire like any other unit.
  What the platform supplies is a parameter: `new URL` and `toLocaleLowerCase('en-US')`.

  An `undefined` member is one that is not there, so an object literal is the list of its present
  fields in the order they are set. Permission entries are written as `{ action, scope, source }`.
-/

import Fabrika.Lib.JsonParse

namespace Fabrika.AuthCore.Token

open Fabrika.Lib
open Fabrika.Lib.Double (Number)

/-! ## The platform -/

structure Url where
  protocol : Units
  hostname : Units

structure Platform where
  /-- `new URL(text)`; `none` where it throws. -/
  url : Units → Option Url
  toLocaleLowerCase : Units → Units

/-! ## Types -/

structure Scope where
  type : Units
  value : Units
  deriving DecidableEq

inductive PermissionSource
  | grant
  | bootstrap
  | terminal
  | group (ref : Units)
  deriving DecidableEq

structure PermissionEntry where
  action : Units
  scope : Option Scope
  source : PermissionSource
  deriving DecidableEq

inductive WorkloadKind
  | job
  | webhook
  | public_
  | app
  deriving DecidableEq

inductive TokenPrincipalType
  | user
  | service
  | workload (kind : WorkloadKind)
  deriving DecidableEq

structure TerminalTokenClaims where
  id : Units
  label : Units
  deriving DecidableEq

structure LinkTokenClaims where
  mount : Units
  chain : List Scope
  deriving DecidableEq

structure OAuthTokenClaims where
  app : Units
  clientId : Units
  scopes : List Units
  grantId : Units
  tokenId : Units
  deriving DecidableEq

/-- `amr` says whether it is there: it has one value. So has `session`. -/
structure AccessTokenClaims where
  iss : Units
  aud : Units
  sub : Units
  iat : Number
  exp : Number
  perms : List PermissionEntry
  label : Option Units
  ptype : Option TokenPrincipalType
  workload : Option Units
  email : Option Units
  session : Bool
  amr : Bool
  terminal : Option TerminalTokenClaims
  oauth : Option OAuthTokenClaims
  link : Option LinkTokenClaims

structure AccessTokenParams where
  iss : Units
  app : Units
  subject : Units
  type : Option TokenPrincipalType
  workload : Option Units
  label : Option Units
  email : Option Units
  session : Bool
  terminal : Option TerminalTokenClaims
  permissions : List PermissionEntry
  issuedAt : Number
  expiresAt : Number
  link : Option LinkTokenClaims

structure ResourceAccessTokenParams where
  iss : Units
  app : Units
  resource : Units
  subject : Units
  label : Option Units
  permissions : List PermissionEntry
  issuedAt : Number
  expiresAt : Number
  clientId : Units
  scopes : List Units
  grantId : Units
  tokenId : Units

inductive TokenAudienceProfile
  | app (app : Units)
  | resource (app resource : Units)

def TokenPrincipalType.workloadKind : TokenPrincipalType → Option WorkloadKind
  | .workload kind => some kind
  | _ => none

/-- `isWorkloadKind(type)`. -/
def isWorkloadKind (type : Option TokenPrincipalType) : Bool := (type.bind TokenPrincipalType.workloadKind).isSome

def TokenPrincipalType.text : TokenPrincipalType → String
  | .user => "user"
  | .service => "service"
  | .workload .job => "job"
  | .workload .webhook => "webhook"
  | .workload .public_ => "public"
  | .workload .app => "app"

/-! ## OAuth checks -/

def isHexUnit (u : Nat) : Bool := (0x30 ≤ u && u ≤ 0x39) || (0x41 ≤ u && u ≤ 0x46) || (0x61 ≤ u && u ≤ 0x66)

def startsWith (text start : Units) : Bool := start.isPrefixOf text

def endsWith (text tail : Units) : Bool := tail.isSuffixOf text

/-- `/%(?![A-Fa-f0-9]{2})/`. -/
def hasBadPercent : Units → Bool
  | [] => false
  | u :: rest =>
    (u == 0x25 && !(match rest with
      | a :: b :: _ => isHexUnit a && isHexUnit b
      | _ => false)) || hasBadPercent rest

def lowerAscii (u : Nat) : Nat := if 0x41 ≤ u ∧ u ≤ 0x5a then u + 0x20 else u

/-- What ends the authority of a URI. -/
def endsAuthority (u : Nat) : Bool := u == 0x2f || u == 0x3f || u == 0x23

/-- `/^https?:\/\/[^/?#]+(?:[/?#]|$)/i`: a scheme and a non-empty authority. -/
def hasHttpAuthority (value : Units) : Bool :=
  let starts (scheme : String) := startsWith (value.map lowerAscii) (codeUnits scheme) &&
    (value.drop (codeUnits scheme).length).head?.any fun u => !endsAuthority u
  starts "http://" || starts "https://"

/-- A blank, or one of `\`, `<`, `>`, `"`, `{`, `}`, `|`, `^` and the backtick. -/
def isUriBreak (u : Nat) : Bool :=
  Double.isWhiteSpace u || u == 0x5c || u == 0x3c || u == 0x3e || u == 0x22 || u == 0x7b || u == 0x7d || u == 0x7c ||
    u == 0x5e || u == 0x60

def isUriText (value : Units) : Bool :=
  0 < value.length && value.length ≤ 2048 && !value.any isUriBreak && !hasBadPercent value && hasHttpAuthority value

/-- A text before the first `sep` and after it. -/
def cutAt (sep : Units) : Units → Option (Units × Units)
  | [] => if sep = [] then some ([], []) else none
  | u :: rest =>
    if startsWith (u :: rest) sep then some ([], (u :: rest).drop sep.length)
    else (cutAt sep rest).map fun found => (u :: found.1, found.2)

/-- `value.split('://')[1]?.split(/[/?#]/)[0] ?? ''`. -/
def uriAuthority (value : Units) : Units :=
  match cutAt (codeUnits "://") value with
  | none => []
  | some (_, after) =>
    let part := match cutAt (codeUnits "://") after with
      | none => after
      | some (before, _) => before
    part.takeWhile fun u => !endsAuthority u

def isOAuthResourceUri (P : Platform) (value : Units) : Bool :=
  isUriText value &&
    match P.url value with
    | none => false
    | some url =>
      let isLocal := url.hostname = codeUnits "localhost" || endsWith url.hostname (codeUnits ".localhost") ||
        url.hostname = codeUnits "127.0.0.1" || url.hostname = codeUnits "[::1]"
      (url.protocol = codeUnits "https:" || (url.protocol = codeUnits "http:" && isLocal)) &&
        !(uriAuthority value).contains 0x40 && !value.contains 0x23

/-- `segment.replace(/%2e/gi, '.')`. -/
def decodeDots : Units → Units
  | 0x25 :: 0x32 :: e :: rest => if e = 0x65 ∨ e = 0x45 then 0x2e :: decodeDots rest else 0x25 :: decodeDots (0x32 :: e :: rest)
  | u :: rest => u :: decodeDots rest
  | [] => []

def isCimdClientId (P : Platform) (value : Units) : Bool :=
  if !isUriText value || value.contains 0x23 || (uriAuthority value).contains 0x40 then false
  else
    match P.url value with
    | none => false
    | some url =>
      let after := match cutAt (codeUnits "://") value with
        | none => value.drop 2
        | some (_, after) => after
      let authorityAndPath := after.takeWhile fun u => u != 0x3f && u != 0x23
      let path := authorityAndPath.dropWhile (· != 0x2f)
      if url.protocol ≠ codeUnits "https:" ∨ path = [] then false
      else !((path.splitOn 0x2f).map decodeDots).any fun segment => segment = [0x2e] || segment = [0x2e, 0x2e]

def isScopeUnit (u : Nat) : Bool := u == 0x21 || (0x23 ≤ u && u ≤ 0x5b) || (0x5d ≤ u && u ≤ 0x7e)

/-- The loop of `parseOAuthScopes`: `scopes` are those read so far. -/
def scopesFrom (scopes : List Units) : List Units → Option (List Units)
  | [] => some scopes
  | item :: rest =>
    if item.length = 0 || item.length > 200 || !item.all isScopeUnit || scopes.contains item then none
    else scopesFrom (scopes ++ [item]) rest

def parseOAuthScopes (value : List Units) : Option (List Units) :=
  if value.length = 0 ∨ value.length > 64 then none else scopesFrom [] value

/-! ## Names -/

def isLetter (u : Nat) : Bool := (0x41 ≤ u && u ≤ 0x5a) || (0x61 ≤ u && u ≤ 0x7a)

def isAlphanumeric (u : Nat) : Bool := isLetter u || Json.isDigit u

/-- `/^[A-Za-z0-9][A-Za-z0-9_-]{0,63}$/`. -/
def isTokenWorkloadName : Units → Bool
  | [] => false
  | u :: rest => isAlphanumeric u && rest.length ≤ 63 && rest.all fun v => isAlphanumeric v || v == 0x5f || v == 0x2d

/-- `[A-Za-z][A-Za-z0-9_]*`. -/
def isPublicPart : Units → Bool
  | [] => false
  | u :: rest => isLetter u && rest.all fun v => isAlphanumeric v || v == 0x5f

/-- `isOwnWorkloadName('public', name)`: two parts or more, each after a dot but the first. -/
def isPublicWorkloadName (name : Units) : Bool :=
  let parts := name.splitOn 0x2e
  name.length ≤ 128 && 2 ≤ parts.length && parts.all isPublicPart

def isWorkloadName : WorkloadKind → Units → Bool
  | .public_, value => isPublicWorkloadName value
  | _, value => isTokenWorkloadName value

/-- `/^[^\s@]+@[^\s@]+$/`. -/
def isMailbox (value : Units) : Bool :=
  let isPart (part : Units) := part ≠ [] && part.all fun u => !Double.isWhiteSpace u && u != 0x40
  match value.dropWhile (· != 0x40) with
  | [] => false
  | _ :: domain => isPart (value.takeWhile (· != 0x40)) && isPart domain

def isNormalizedMailbox (P : Platform) (value : Units) : Bool :=
  value = P.toLocaleLowerCase (Double.trim value) && isMailbox value

def isTerminalClaims (id label : Option Units) : Bool := id ≠ none && id ≠ some [] && label ≠ none && label ≠ some []

/-! ## Payloads -/

abbrev Payload := Json Number

/-- An own property; an array has none of the names asked for. -/
def prop (value : Option Payload) (key : String) : Option Payload :=
  match value with
  | some (.obj fields) => fields.lookup (codeUnits key)
  | _ => none

def stringField (value : Option Payload) (key : String) : Option Units :=
  match prop value key with
  | some (.str text) => some text
  | _ => none

def numberField (value : Option Payload) (key : String) : Option Number :=
  match prop value key with
  | some (.num .nan) => none
  | some (.num (.infinite _)) => none
  | some (.num number) => some number
  | _ => none

def principalTypeOf (text : Units) : Option TokenPrincipalType :=
  [.user, .service, .workload .job, .workload .webhook, .workload .public_, .workload .app].find? fun type =>
    codeUnits type.text = text

/-- `none` is `undefined`, for a malformed or unknown kind. -/
def parseOptionalPrincipalType (value : Option Payload) : Option (Option TokenPrincipalType) :=
  match value with
  | none => some none
  | some .null => some none
  | some (.str text) => (principalTypeOf text).map some
  | _ => none

def parseNullableString (value : Option Payload) : Option (Option Units) :=
  match value with
  | none => some none
  | some .null => some none
  | some (.str text) => some (some text)
  | _ => none

def parseScope (value : Option Payload) : Option (Option Scope) :=
  match value with
  | some .null => some none
  | _ =>
    match stringField value "type", stringField value "value" with
    | some type, some scopeValue => some (some ⟨type, scopeValue⟩)
    | _, _ => none

def parseSource (value : Option Payload) : Option PermissionSource :=
  match value with
  | some (.str text) =>
    if text = codeUnits "grant" then some .grant
    else if text = codeUnits "bootstrap" then some .bootstrap
    else if text = codeUnits "terminal" then some .terminal
    else if startsWith text (codeUnits "group:") then some (.group (text.drop (codeUnits "group:").length))
    else none
  | _ => none

def parseEntry (item : Payload) : Option PermissionEntry :=
  match stringField (some item) "action", parseScope (prop (some item) "scope"), parseSource (prop (some item) "source") with
  | some action, some scope, some source => some ⟨action, scope, source⟩
  | _, _, _ => none

def parsePermissionEntries (value : Option Payload) : Option (List PermissionEntry) :=
  match value with
  | some (.arr items) => items.mapM parseEntry
  | _ => none

def parseOAuthClaims (P : Platform) (payload : Option Payload) : Option (Option OAuthTokenClaims) :=
  let app := prop payload "app"
  let clientId := prop payload "client_id"
  let scope := prop payload "scope"
  let grantId := prop payload "grant"
  let tokenId := prop payload "jti"
  if app.isNone && clientId.isNone && scope.isNone && grantId.isNone && tokenId.isNone then some none
  else
    match app, clientId, scope, grantId, tokenId with
    | some (.str app), some (.str clientId), some (.str scope), some (.str grantId), some (.str tokenId) =>
      match parseOAuthScopes (scope.splitOn 0x20) with
      | none => none
      | some scopes =>
        if app = [] || !isCimdClientId P clientId || grantId = [] || tokenId = [] then none
        else some (some ⟨app, clientId, scopes, grantId, tokenId⟩)
    | _, _, _, _, _ => none

def parseLinkClaims (value : Option Payload) : Option (Option LinkTokenClaims) :=
  match value with
  | none => some none
  | some _ =>
    match stringField value "mount", prop value "chain" with
    | some mount, some (.arr rawChain) =>
      if mount = [] || rawChain.length = 0 then none
      else (rawChain.mapM fun item => (parseScope (some item)).join).map fun chain => some ⟨mount, chain⟩
    | _, _ => none

def parseWorkload (value : Option Payload) (ptype : Option TokenPrincipalType) : Option (Option Units) :=
  match ptype.bind TokenPrincipalType.workloadKind with
  | none => if value.isNone then some none else none
  | some kind =>
    match value with
    | some (.str name) => if isWorkloadName kind name then some (some name) else none
    | _ => none

def parseEmail (P : Platform) (value : Option Payload) (ptype : Option TokenPrincipalType) : Option (Option Units) :=
  match value with
  | none => some none
  | some (.str email) => if ptype = some .user && isNormalizedMailbox P email then some (some email) else none
  | some _ => none

def terminalAuthenticationMethod : String := "terminal_assertion"

def parseTerminalClaims (amr value : Option Payload) : Option (Option TerminalTokenClaims) :=
  if amr.isNone && value.isNone then some none
  else
    match amr with
    | some (.str method) =>
      if method ≠ codeUnits terminalAuthenticationMethod then none
      else
        match stringField value "id", stringField value "label" with
        | some id, some label => if isTerminalClaims (some id) (some label) then some (some ⟨id, label⟩) else none
        | _, _ => none
    | _ => none

/-- `session` is absent, or `true`. -/
def parseSession (value : Option Payload) (ptype : Option TokenPrincipalType) (oauth : Option OAuthTokenClaims) : Option Bool :=
  match value with
  | none => some false
  | some (.bool true) => if ptype.isNone || isWorkloadKind ptype || oauth.isSome then none else some true
  | some _ => none

/-- `if (refused) return null`. -/
def nullIf (refused : Bool) : Option Unit := if refused then none else some ()

def parseAccessClaims (P : Platform) (payload : Payload) : Option AccessTokenClaims := do
  let iss ← stringField (some payload) "iss"
  let aud ← stringField (some payload) "aud"
  let sub ← stringField (some payload) "sub"
  let iat ← numberField (some payload) "iat"
  let exp ← numberField (some payload) "exp"
  let perms ← parsePermissionEntries (prop (some payload) "perms")
  let label ← parseNullableString (prop (some payload) "label")
  let ptype ← parseOptionalPrincipalType (prop (some payload) "ptype")
  let oauth ← parseOAuthClaims P (some payload)
  nullIf (oauth.isSome && (ptype ≠ some .user || !isOAuthResourceUri P aud))
  let link ← parseLinkClaims (prop (some payload) "link")
  nullIf (link.isSome && (ptype.isSome || oauth.isSome))
  let workload ← parseWorkload (prop (some payload) "workload") ptype
  let email ← parseEmail P (prop (some payload) "email") ptype
  let session ← parseSession (prop (some payload) "session") ptype oauth
  let terminal ← parseTerminalClaims (prop (some payload) "amr") (prop (some payload) "terminal")
  nullIf (terminal.isSome && (ptype ≠ some .user || !session || oauth.isSome))
  return { iss, aud, sub, iat, exp, perms, label, ptype, workload, email, session, amr := terminal.isSome, terminal, oauth, link }

/-! ## Building -/

/-- `if (refused) throw new Error(message)`. -/
def throwIf (refused : Bool) (message : String) : Except String Unit := if refused then throw message else pure ()

/-- A workload type without its name, or a name without one. -/
def misnamed (params : AccessTokenParams) : Bool :=
  match params.type.bind TokenPrincipalType.workloadKind with
  | none => params.workload.isSome
  | some kind => !params.workload.any (isWorkloadName kind)

def buildAccessClaims (P : Platform) (params : AccessTokenParams) : Except String AccessTokenClaims := do
  throwIf (misnamed params) "A workload token names its workload, and only a workload token does"
  throwIf (params.email.any fun email => params.type ≠ some .user || !isNormalizedMailbox P email)
    "Only a user token carries a mailbox, and only a normalized one"
  throwIf (params.session && (params.type.isNone || isWorkloadKind params.type))
    "Only a person's or a service's token is minted from a session"
  throwIf (params.terminal.any fun terminal =>
      params.type ≠ some .user || !params.session || !isTerminalClaims (some terminal.id) (some terminal.label))
    "Only a person's session token names a terminal, and only by a non-empty id and label"
  throwIf (params.link.isSome && params.type.isSome) "A share-link token has no principal type"
  return {
    iss := params.iss, aud := params.app, sub := params.subject, iat := params.issuedAt, exp := params.expiresAt,
    perms := params.permissions, label := params.label, ptype := params.type, workload := params.workload, email := params.email,
    session := params.session, amr := params.terminal.isSome, terminal := params.terminal, oauth := none, link := params.link }

/-! ## Claims as JSON -/

def Scope.json (scope : Scope) : Payload := Json.object [("type", .str scope.type), ("value", .str scope.value)]

def PermissionSource.text : PermissionSource → Units
  | .grant => codeUnits "grant"
  | .bootstrap => codeUnits "bootstrap"
  | .terminal => codeUnits "terminal"
  | .group ref => codeUnits "group:" ++ ref

def nullable {α : Type} (json : α → Payload) : Option α → Payload
  | none => .null
  | some value => json value

def PermissionEntry.json (entry : PermissionEntry) : Payload :=
  Json.object [("action", .str entry.action), ("scope", nullable Scope.json entry.scope), ("source", .str entry.source.text)]

def TerminalTokenClaims.json (terminal : TerminalTokenClaims) : Payload :=
  Json.object [("id", .str terminal.id), ("label", .str terminal.label)]

def LinkTokenClaims.json (link : LinkTokenClaims) : Payload :=
  Json.object [("mount", .str link.mount), ("chain", .arr (link.chain.map Scope.json))]

def OAuthTokenClaims.json (oauth : OAuthTokenClaims) : Payload :=
  Json.object [("app", .str oauth.app), ("clientId", .str oauth.clientId), ("scopes", .arr (oauth.scopes.map .str)),
    ("grantId", .str oauth.grantId), ("tokenId", .str oauth.tokenId)]

/-- A flag that is `true` or not there. -/
def flag (set : Bool) (value : Payload) : Option Payload := if set then some value else none

def AccessTokenClaims.json (claims : AccessTokenClaims) : Payload :=
  Json.object (
    [("iss", .str claims.iss), ("aud", .str claims.aud), ("sub", .str claims.sub), ("iat", .num claims.iat),
      ("exp", .num claims.exp), ("perms", .arr (claims.perms.map PermissionEntry.json)), ("label", nullable .str claims.label)] ++
    Json.present "ptype" (claims.ptype.map fun type => Json.text type.text) ++
    Json.present "workload" (claims.workload.map .str) ++
    Json.present "email" (claims.email.map .str) ++
    Json.present "session" (flag claims.session (.bool true)) ++
    Json.present "amr" (flag claims.amr (Json.text terminalAuthenticationMethod)) ++
    Json.present "terminal" (claims.terminal.map TerminalTokenClaims.json) ++
    Json.present "oauth" (claims.oauth.map OAuthTokenClaims.json) ++
    Json.present "link" (claims.link.map LinkTokenClaims.json))

def ResourceAccessTokenParams.payload (params : ResourceAccessTokenParams) : Payload :=
  Json.object
    [("iss", .str params.iss), ("aud", .str params.resource), ("sub", .str params.subject), ("iat", .num params.issuedAt),
      ("exp", .num params.expiresAt), ("perms", .arr (params.permissions.map PermissionEntry.json)), ("ptype", Json.text "user"),
      ("label", nullable .str params.label), ("app", .str params.app), ("client_id", .str params.clientId),
      ("scope", .str ([0x20].intercalate params.scopes)), ("grant", .str params.grantId), ("jti", .str params.tokenId)]

def buildResourceAccessClaims (P : Platform) (params : ResourceAccessTokenParams) : Except String Payload :=
  if ((parseAccessClaims P params.payload).bind AccessTokenClaims.oauth).isNone then throw "Invalid resource access token claims"
  else pure params.payload

/-- `parseAccessClaims(JSON.parse(JSON.stringify(payload)))`. -/
def parseOnWire (P : Platform) (payload : Payload) : Option AccessTokenClaims :=
  (Json.parse (Json.stringify payload)).bind (parseAccessClaims P)

def matchesTokenAudience (claims : AccessTokenClaims) : TokenAudienceProfile → Bool
  | .app app => claims.oauth.isNone && claims.aud = app
  | .resource app resource => claims.oauth.any (fun oauth => oauth.app = app) && claims.aud = resource

end Fabrika.AuthCore.Token
