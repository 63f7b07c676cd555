/-
  Fabrika.Control.EndpointLines — the endpoints of an access classification (diff.ts): rows by
  id, and where the paths of a removed one go.

  The proxy selects the most specific row, so the paths of a removed row fall through to a
  broader one. `fallThrough` asks the matcher itself, before and after, on finitely many paths
  (`probePaths`) that are to stand for every path the removed row matches.
-/

import Fabrika.AuthCore.Contract
import Fabrika.Control.Lines

namespace Fabrika.Control

open Fabrika.Lib Fabrika.AuthCore
open Fabrika.AuthCore.Endpoints (splitPath planEndpoint compileEndpointTable CompiledEndpointTable EndpointPlan)

/-! ## Probe paths -/

def isLiteral (segment : String) : Bool := segment != "*" && !Text.startsWith segment ":"

/-- Whether the pattern passed its wildcard before `index`. -/
def endsBefore (segments : List String) (index : Nat) : Bool := segments.getLast? == some "*" && segments.length ≤ index

/-- Whether a pattern that may match a path's first `index` segments may still match it with
    `value` as the next one. -/
def mayMatch (segments : List String) (index : Nat) (value : String) : Bool :=
  match segments[index]? with
  | none => endsBefore segments index
  | some segment =>
    if segment = "*" then true
    else if Text.startsWith segment ":" then value != ""
    else segment == value

/-- The loop that lengthens the fresh segment; it turns at most once for each literal. -/
def growFresh (literals : List String) : Nat → String → String
  | 0, fresh => fresh
  | turns + 1, fresh => if literals.contains fresh then growFresh literals turns (fresh ++ "x") else fresh

def freshSegment (literals : List String) : String := growFresh literals literals.length "x"

def pastWildcard (own : List String) (index : Nat) : Bool := own.getLast? == some "*" && own.length - 1 ≤ index

/-- The literals the live patterns have at `index`. -/
def literalsAt (own : List String) (index : Nat) (live : List (List String)) : List String :=
  live.flatMap fun segments =>
    match segments[index]? with
    | some segment => if isLiteral segment && (segment != "" || pastWildcard own index) then [segment] else []
    | none => []

def probeValues (own : List String) (fresh : String) (index : Nat) (live : List (List String)) : List String :=
  let others := (literalsAt own index live).eraseDups ++ [fresh] ++ (if pastWildcard own index && 0 < index then [""] else [])
  match own[index]? with
  | some mine => if isLiteral mine then [mine] else others
  | none => others

def pathOf (segments : List String) : String := "/" ++ "/".intercalate segments

/-- Past the end of `own`, after a trailing `/`, or once every live pattern has passed its
    wildcard, nothing differs. -/
def probeStops (own taken : List String) (live : List (List String)) : Bool :=
  taken.getLast? == some "" || (own[taken.length]?.isNone && !pastWildcard own taken.length)
    || live.all fun segments => endsBefore segments taken.length

/-- `extend`. No path is longer than the longest pattern by more than one segment. -/
def extendPaths (own : List String) (fresh : String) : Nat → List String → List (List String) → List String
  | 0, _, _ => []
  | depth + 1, taken, live =>
    pathOf taken ::
      if probeStops own taken live then []
      else (probeValues own fresh taken.length live).eraseDups.flatMap fun value =>
        extendPaths own fresh depth (taken ++ [value]) (live.filter fun segments => mayMatch segments taken.length value)

def longest (patterns : List (List String)) : Nat := patterns.foldr (fun segments n => max segments.length n) 0

/-- Request paths that stand for every path `pattern` matches, as finely as `patterns` tell
    paths apart. -/
def probePaths (pattern : String) (patterns : List String) : List String :=
  let own := splitPath pattern
  let all := own :: patterns.map splitPath
  let fresh := freshSegment (all.flatten.filter isLiteral)
  (extendPaths own fresh (longest all + 2) [] all).eraseDups

example : probePaths "/a/:x" ["/a/:x", "/a/b", "/*"] = ["/", "/a", "/a/b", "/a/x"] := by decide

/-! ## Whether a row admits no more than another -/

/-- An anonymous endpoint that turns no caller away: anyone who asks gets the answer. -/
def opensToAnyone (row : EndpointRow) : Bool :=
  row.kind == .anonymous .health || row.kind == .anonymous .publicSpa || row.kind == .anonymous .public

/-- Whether the requirement takes its scope from one of the row's path parameters. -/
def readsPathParameter (row : EndpointRow) : Bool :=
  match row.requirement with
  | some (.action ⟨_, .within _ source⟩) => (splitPath row.path).contains (":" ++ source)
  | some (.action ⟨_, .on _ (some source)⟩) => (splitPath row.path).contains (":" ++ source)
  | _ => false

/-- No other origin, the environment's list, any origin: each admits every page the one before
    it does. -/
def crossOriginRank : Option CrossOriginForm → Nat
  | none => 0
  | some .environment => 1
  | some .any => 2

/-- `canonicalJson` of a requirement: the names of its capabilities sorted. -/
def canonicalRequirement : EndpointRequirement → EndpointRequirement
  | .capabilities capabilities => .capabilities (sortedOn Prod.fst capabilities)
  | requirement => requirement

def admitsKind (after before : EndpointRow) : Bool :=
  match before.requirement with
  | none => opensToAnyone before && (after.requirement.isSome || opensToAnyone after)
  | some _ => after.kind == before.kind

def admitsRequirement (after before : EndpointRow) : Bool :=
  match before.requirement, after.requirement with
  | none, _ => opensToAnyone before
  | some _, none => false
  | some required, some requirement =>
    !readsPathParameter after && !readsPathParameter before
      && canonicalRequirement requirement == canonicalRequirement required

def admitsCallers (after before : EndpointRow) : Bool :=
  match before.requirement with
  | none => opensToAnyone before
  | some _ => after.callers.all fun caller => (caller != .link || after.source == before.source) && before.callers.contains caller

def admitsBody (after before : EndpointRow) : Bool := after.admission.isNone || after.admission == before.admission

def admitsOrigin (after before : EndpointRow) : Bool := crossOriginRank after.crossOrigin ≤ crossOriginRank before.crossOrigin

/-- `ADMITS_NO_MORE`: every field of the row has its say; `path`, `id` and `source` always agree. -/
def admitsNoMoreFields (after before : EndpointRow) : Bool :=
  admitsKind after before && admitsRequirement after before && admitsCallers after before && admitsBody after before
    && admitsOrigin after before && after.response == before.response && after.cache == before.cache
    && (!after.forwardsAuthorization || before.forwardsAuthorization) && after.method == before.method

/-- Whether `after` admits only callers `before` admitted on the same paths. The delegation is
    compared only after a signed-in endpoint. -/
def admitsNoMoreThan (afterArtifact : ContractArtifact) (after : EndpointRow) (beforeArtifact : ContractArtifact)
    (before : EndpointRow) : Bool :=
  admitsNoMoreFields after before
    && (before.requirement.isNone || endpointDelegation afterArtifact after == endpointDelegation beforeArtifact before)

/-! ## Where the paths of a removed endpoint go -/

def compiledTable (artifact : ContractArtifact) : Answer (CompiledEndpointTable EndpointRow) :=
  (compileEndpointTable artifact.table).mapError .endpointTable

/-- The rows that answer the probes now, by id, and whether one is denied. -/
structure Reached where
  answering : Record EndpointRow := ∅
  denied : Bool := false

def probe (before after : CompiledEndpointTable EndpointRow) (row : EndpointRow) (s : Reached) (path : String) : Reached :=
  match planEndpoint before row.method.pattern.text path with
  | .endpoint was _ =>
    if was.id ≠ row.id then s
    else
      match planEndpoint after row.method.pattern.text path with
      | .endpoint now _ => { s with answering := s.answering.insert now.id now }
      | _ => { s with denied := true }
  | _ => s

/-- The effect of a removal: no endpoint narrows, endpoints that admit exactly the removed one's
    callers change nothing, endpoints that admit no caller more narrow, and any other widens. -/
def fateOf (reached : Reached) (row : EndpointRow) (baseline candidate : ContractArtifact) : AccessEffect :=
  let answering := reached.answering.pairs.map Prod.snd
  if answering = [] then .narrows
  else if !answering.all fun other => admitsNoMoreThan candidate other baseline row then .widens
  else if (answering.all fun other => admitsNoMoreThan baseline row candidate other) && !reached.denied then .neutral
  else .narrows

def fallThrough (row : EndpointRow) (baseline candidate : ContractArtifact) : Answer AccessEffect := do
  let before ← compiledTable baseline
  let after ← compiledTable candidate
  let paths := probePaths row.path ((baseline.endpoints ++ candidate.endpoints).map EndpointRow.path)
  return fateOf (paths.foldl (probe before after row) {}) row baseline candidate

/-! ## Rows by id -/

def byId (rows : List EndpointRow) : Record EndpointRow := rows.foldl (fun map row => map.insert row.id row) ∅

def admissionChanges (before after : Option BodyAdmission) : List RuledLine :=
  match before, after with
  | none, none => []
  | some _, none => ruled "endpoint.body" [.narrows]
  | none, some _ => ruled "endpoint.body" [.widens]
  | some was, some now =>
    ruled "endpoint.body-types" (setChanges was.contentTypes now.contentTypes)
      ++ ruled "endpoint.body-limit" (limitChange was.maxBytes now.maxBytes)

/-- Opening an endpoint to another origin widens, and so does `environment` to `any`. -/
def crossOriginChanges (before after : Option CrossOriginForm) : List AccessEffect :=
  if before = after then []
  else
    match after with
    | none => [.narrows]
    | some _ => if before = some .any then [.narrows] else [.widens]

def authorizationChange (before after : Bool) : List AccessEffect := flagChange before after .widens .narrows

def becomesPublic (was now : EndpointRow) : Bool :=
  was.requirement.isSome && (now.kind == .anonymous .publicSpa || now.kind == .anonymous .public)

def endpointChanges (was now : EndpointRow) : List RuledLine :=
  ruled "endpoint.public" (if becomesPublic was now then [.widens] else [])
    ++ ruled "endpoint.kind" (valueChange was.kind now.kind)
    ++ ruled "endpoint.route" (valueChange (was.method, was.path) (now.method, now.path))
    ++ ruled "endpoint.callers" (setChanges (was.callers.map Caller.text) (now.callers.map Caller.text))
    ++ ruled "endpoint.requirement"
      (valueChange (was.requirement.map canonicalRequirement) (now.requirement.map canonicalRequirement))
    ++ admissionChanges was.admission now.admission
    ++ ruled "endpoint.cross-origin" (crossOriginChanges was.crossOrigin now.crossOrigin)
    ++ ruled "endpoint.cache" (if was.cache = now.cache then [] else [.neutral])
    ++ ruled "endpoint.authorization" (authorizationChange was.forwardsAuthorization now.forwardsAuthorization)

/-! ## Removed rows and removed mounts -/

/-- A removed mount takes all its rows with it. -/
def ofRemovedMount (baseline candidate : ContractArtifact) (row : EndpointRow) : Bool :=
  row.source.kind == .mount && (baseline.mounts.lookup row.source.name).isSome
    && (candidate.mounts.lookup row.source.name).isNone

def removedRows (baseline candidate : ContractArtifact) : List EndpointRow :=
  baseline.endpoints.filter fun row => ((byId candidate.endpoints).lookup row.id).isNone

def removedRowChange (baseline candidate : ContractArtifact) (row : EndpointRow) : Answer AccessChange := do
  let fate ← fallThrough row baseline candidate
  return ⟨.endpoint, row.id, "endpoint.removed", fate⟩

/-- The public variables a mount hands its pages. -/
def servedNames : MountArtifact → List String
  | .spa mount => mount.public
  | .form mount => ((mount.challenge.bind FormChallenge.siteKey).map fun key => [key]).getD []
  | _ => []

/-- The strongest effect of any route, and of the public variables the mount's pages no longer
    get. Only an SPA mount that served no public variable can leave access unchanged. -/
def removedMountEffect (mount : Option MountArtifact) (fates : List AccessEffect) : AccessEffect :=
  let served := ((mount.map servedNames).getD []) ≠ []
  let parts := fates ++ (if served then [.narrows] else [])
  let keepsAccess := match mount with
    | some (.spa _) => !served
    | _ => false
  if parts.contains .widens then .widens
  else if !keepsAccess || parts.contains .narrows then .narrows
  else .neutral

def removedMountChange (baseline candidate : ContractArtifact) (mount : String) : Answer AccessChange := do
  let rows := (removedRows baseline candidate).filter fun row => ofRemovedMount baseline candidate row && row.source.name == mount
  let fates ← rows.mapM fun row => fallThrough row baseline candidate
  return ⟨.mount, mount, "mount.removed", removedMountEffect (baseline.mounts.lookup mount) fates⟩

/-- The removed mounts with a row, whose rows a line of their own shows. -/
def removedMounts (baseline candidate : ContractArtifact) : List String :=
  (((removedRows baseline candidate).filter (ofRemovedMount baseline candidate)).map fun row => row.source.name).eraseDups

def compareEndpoints (baseline candidate : ContractArtifact) : Answer (List AccessChange) := do
  let kept ← compareKeyed .endpoint (byId baseline.endpoints) (byId candidate.endpoints)
    { removed := fun _ _ => [], changed := fun _ was now => pure (endpointChanges was now) }
  let rows ← ((removedRows baseline candidate).filter fun row => !ofRemovedMount baseline candidate row).mapM
    (removedRowChange baseline candidate)
  let mounts ← (removedMounts baseline candidate).mapM (removedMountChange baseline candidate)
  return kept ++ rows ++ mounts

end Fabrika.Control
