/-
  Fabrika.AuthCore.Requirement — permissions.ts and requirement.ts: which permissions grant
  an action, which caller kind a verified token presents, and whether a token meets an
  endpoint's requirement. These read only the token; no scope is narrowed here.
-/

import Fabrika.Lib.Text

namespace Fabrika.AuthCore

open Fabrika.Lib

/-! ## Permissions -/

structure Scope where
  type : String
  value : String
  deriving DecidableEq

/-- `scope = none` is a global grant. -/
structure PermissionEntry where
  action : String
  scope : Option Scope
  deriving DecidableEq

/-- `*` matches every action, `x.*` the actions below `x.`, anything else itself. -/
def matchAction (pattern action : String) : Bool :=
  if pattern = "*" then true
  else if Text.endsWith pattern ".*" then Text.startsWith action (String.ofList pattern.toList.dropLast)
  else pattern == action

example : matchAction "project.*" "project.settings.update" = true ∧ matchAction "project.*" "projects.read" = false := by decide

def scopeAdmits (granted asked : Option Scope) : Bool :=
  match granted, asked with
  | none, _ => true
  | some g, some a => g.type == a.type && g.value == a.value
  | some _, none => false

def permits (entries : List PermissionEntry) (action : String) (scope : Option Scope) : Bool :=
  entries.any fun entry => scopeAdmits entry.scope scope && matchAction entry.action action

/-! ## The claims of a verified token -/

inductive TokenPrincipalType
  | user
  | service
  | app
  | job
  | webhook
  | «public»
  deriving DecidableEq

structure OAuthTokenClaims where
  app : String
  clientId : String
  scopes : List String
  grantId : String
  tokenId : String
  deriving DecidableEq

structure AccessTokenClaims where
  iss : String
  aud : String
  sub : String
  iat : Int
  exp : Int
  perms : List PermissionEntry
  ptype : Option TokenPrincipalType
  workload : Option String
  oauth : Option OAuthTokenClaims
  deriving DecidableEq

/-- Every caller a verified token can present; `app id` is `app:<id>`. -/
inductive TokenCaller
  | human
  | machine
  | link
  | app (id : String)
  | oauth
  deriving DecidableEq

/-- A job, webhook or public procedure token is no caller. -/
def callerOf (claims : AccessTokenClaims) : Option TokenCaller :=
  if claims.oauth.isSome then some .oauth
  else match claims.ptype with
    | some .user => some .human
    | some .service => some .machine
    | some .app => claims.workload.map .app
    | some .job => none
    | some .webhook => none
    | some .public => none
    | none => some .link

def connectPrefix : String := "/__fabrika/connect"

/-- A connector caller reaches only an export's paths. -/
def callerAdmittedAt (caller : TokenCaller) (path : String) : Bool :=
  match caller with
  | .app _ => Text.startsWith path (connectPrefix ++ "/")
  | _ => true

/-! ## Requirements -/

/-- `source` is `from`, an input field or a path parameter; of `on` it is `none` for the object
    a link key is bound to. -/
inductive AccessForm
  | over (dimension : String)
  | within (dimension source : String)
  | on (dimension : String) (source : Option String)
  | creates (dimension : String)
  | app
  deriving DecidableEq

structure CapabilityRequirement where
  action : String
  access : AccessForm
  deriving DecidableEq

/-- An endpoint's requirement; `authenticated` is an installation row's only. -/
inductive EndpointRequirement
  | member
  | action (capability : CapabilityRequirement)
  | capabilities (capabilities : List (String × CapabilityRequirement))
  | authenticated
  deriving DecidableEq

/-- The `app` form needs a global grant; any other an entry of the action in its own scope. -/
def holdsAction (requirement : CapabilityRequirement) (perms : List PermissionEntry) : Bool :=
  if requirement.access = .app then perms.any fun entry => permits [entry] requirement.action none
  else perms.any fun entry => permits [entry] requirement.action entry.scope

def satisfies (requirement : EndpointRequirement) (perms : List PermissionEntry) : Bool :=
  match requirement with
  | .authenticated => true
  | .member => perms.length > 0
  | .capabilities capabilities => capabilities.all fun capability => holdsAction capability.2 perms
  | .action capability => holdsAction capability perms

end Fabrika.AuthCore
