/-
  Fabrika.Proxy.EndpointDigest — endpoint-digest.ts, the manifest's producer
  (`contractProxyTable`) and the digest check of its parser (manifest.ts).

  The proxy sends `<id>@<digest>` with every request it allows, and the application compares
  the digest with its own. The producer, the parser and the application each take the digest
  of a row they put together themselves, from different fields.

  Proved:
  - `proxyRow_digest`: the producer's digest of a row is the application's, where no
    credentialed row carries `cache` or `authorization`, which the producer leaves out there;
  - `appliedJson_inj`: rows of one digested text agree on everything the text covers, up to
    the order of callers, content types, scopes and capability names;
  - `parse_format`: the header is read back.
-/

import Fabrika.AuthCore.Sha256
import Fabrika.Proxy.Authorize
import Mathlib.Data.List.Perm.Basic

namespace Fabrika.Proxy

open Fabrika.Lib Fabrika.AuthCore
open Fabrika.AuthCore.Endpoints (EndpointMethod)
open Fabrika.Lib.Json (text object present normal canonicalText)

/-! ## The digested rules as JSON -/

def RowKind.text : RowKind → String
  | .query => "query"
  | .mutation => "mutation"
  | .spa => "spa"
  | .upload => "upload"
  | .download => "download"
  | .health => "health"
  | .form => "form"
  | .webhook => "webhook"
  | .linkSpa => "link-spa"
  | .publicSpa => "public-spa"
  | .public => "public"
  | .protocol => "protocol"
  | .service => "service"

def callerText : TokenCaller → String
  | .human => "human"
  | .machine => "machine"
  | .link => "link"
  | .app id => "app:" ++ id
  | .oauth => "oauth"

def delegationText : EndpointDelegation → String
  | .members => "members"
  | .creates => "creates"

def crossOriginText : CrossOriginForm → String
  | .environment => "environment"
  | .any => "any"

def responseText : EndpointResponse → String
  | .file => "file"
  | .inlineFile => "inline-file"

def orNull {α : Type} (json : α → Json Nat) : Option α → Json Nat
  | none => .null
  | some value => json value

def accessFields : AccessForm → List (String × Json Nat)
  | .over dimension => [("form", text "over"), ("dimension", text dimension)]
  | .within dimension source => [("form", text "in"), ("dimension", text dimension), ("from", text source)]
  | .on dimension source => [("form", text "on"), ("dimension", text dimension), ("from", orNull text source)]
  | .creates dimension => [("form", text "creates"), ("dimension", text dimension)]
  | .app => [("form", text "app")]

def accessJson (access : AccessForm) : Json Nat := object (accessFields access)

def capabilityJson (capability : CapabilityRequirement) : Json Nat :=
  object [("action", text capability.action), ("access", accessJson capability.access)]

def requirementFields : EndpointRequirement → List (String × Json Nat)
  | .member => [("kind", text "member")]
  | .action capability =>
    [("kind", text "action"), ("action", text capability.action), ("access", accessJson capability.access)]
  | .capabilities capabilities =>
    [("kind", text "capabilities"), ("capabilities", object (capabilities.map (Prod.map id capabilityJson)))]
  | .authenticated => [("kind", text "authenticated")]

def requirementJson (requirement : EndpointRequirement) : Json Nat := object (requirementFields requirement)

def namesJson (names : List String) : Json Nat := .arr (names.map text)

def admissionJson (admission : BodyAdmission) : Json Nat :=
  object [("contentTypes", namesJson admission.contentTypes), ("maxBytes", orNull .num admission.maxBytes)]

def cacheJson : EndpointCache → Json Nat
  | .maxAgeSeconds seconds => object [("maxAgeSeconds", .num seconds)]
  | .immutable => text "immutable"

/-! ## The digest of a row -/

/-- What the proxy applies of an endpoint. Only an installation row has OAuth scopes, only an
    application row what follows them. -/
structure EndpointRules where
  kind : RowKind
  method : EndpointMethod
  path : String
  callers : List TokenCaller
  requirement : Option EndpointRequirement
  admission : Option BodyAdmission
  delegation : Option EndpointDelegation
  oauth : Option (List String) := none
  crossOrigin : Option CrossOriginForm := none
  response : Option EndpointResponse := none
  cache : Option EndpointCache := none
  /-- `authorization: 'forward'`. -/
  forwardsAuthorization : Bool := false
  deriving DecidableEq

def appliedFields (rules : EndpointRules) : List (String × Json Nat) :=
  [ ("kind", text rules.kind.text),
    ("method", text rules.method.text),
    ("path", text rules.path),
    ("callers", namesJson (sorted (rules.callers.map callerText))),
    ("requirement", orNull requirementJson rules.requirement),
    ("admission", orNull (fun admission => admissionJson (canonicalAdmission admission)) rules.admission),
    ("delegation", orNull (fun delegation => text (delegationText delegation)) rules.delegation) ]
  ++ present "oauth" (rules.oauth.map fun scopes => object [("scopes", namesJson (sorted scopes))])
  ++ present "crossOrigin" (rules.crossOrigin.map fun form => text (crossOriginText form))
  ++ present "response" (rules.response.map fun response => text (responseText response))
  ++ present "cache" (rules.cache.map cacheJson)
  ++ present "authorization" (if rules.forwardsAuthorization then some (text "forward") else none)

/-- The text a row's digest is taken over. -/
def appliedJson (rules : EndpointRules) : Units := canonicalText (object (appliedFields rules))

def digestOf (json : Units) : String := "sha256:" ++ sha256Hex json

def requirementDigest (rules : EndpointRules) : String := digestOf (appliedJson rules)

def rowKind : EndpointKind → RowKind
  | .credentialed .query => .query
  | .credentialed .mutation => .mutation
  | .credentialed .spa => .spa
  | .credentialed .upload => .upload
  | .credentialed .download => .download
  | .anonymous .health => .health
  | .anonymous .form => .form
  | .anonymous .webhook => .webhook
  | .anonymous .linkSpa => .linkSpa
  | .anonymous .publicSpa => .publicSpa
  | .anonymous .public => .public

def tokenCaller : Caller → TokenCaller
  | .human => .human
  | .machine => .machine
  | .link => .link
  | .app id => .app id

/-- The application's digest: every field of its own row, the delegation derived. -/
def endpointDigest (artifact : ContractArtifact) (row : EndpointRow) : String :=
  requirementDigest
    { kind := rowKind row.kind
      method := row.method.pattern
      path := row.path
      callers := row.callers.map tokenCaller
      requirement := row.requirement
      admission := row.admission
      delegation := endpointDelegation artifact row
      crossOrigin := row.crossOrigin
      response := row.response
      cache := row.cache
      forwardsAuthorization := row.forwardsAuthorization }

/-! ## The manifest's rows -/

structure ProxyEndpointRow where
  id : String
  rules : EndpointRules
  digest : String
  deriving DecidableEq

/-- What the row parser's last refinement asks. -/
def ProxyEndpointRow.describesItsRules (row : ProxyEndpointRow) : Bool := row.digest == requirementDigest row.rules

structure CspOrigins where
  connectSrc : List String
  imgSrc : List String
  frameAncestors : List String
  scriptSrc : List String
  frameSrc : List String
  styleSrc : List String
  fontSrc : List String
  workerSrc : List String
  deriving DecidableEq

def cspOrigins (csp : CspExtensions) : CspOrigins :=
  { connectSrc := csp.connectSrc.map CspSource.origin
    imgSrc := csp.imgSrc.map CspSource.origin
    frameAncestors := csp.frameAncestors.map CspSource.origin
    scriptSrc := csp.scriptSrc.map CspSource.origin
    frameSrc := csp.frameSrc.map CspSource.origin
    styleSrc := csp.styleSrc.map CspSource.origin
    fontSrc := csp.fontSrc.map CspSource.origin
    workerSrc := csp.workerSrc.map CspSource.origin }

structure ContractProxyTable where
  endpoints : List ProxyEndpointRow
  reservedPrefixes : List String
  snapshot : String
  csp : CspOrigins
  deriving DecidableEq

/-- A row of a contract, as the manifest holds it. -/
def proxyRow (artifact : ContractArtifact) (row : EndpointRow) : ProxyEndpointRow :=
  match row.requirement with
  | none =>
    let anonymous : EndpointRules :=
      { method := row.method.pattern
        path := row.path
        admission := row.admission
        crossOrigin := row.crossOrigin
        response := row.response
        cache := row.cache
        forwardsAuthorization := row.forwardsAuthorization
        kind := rowKind row.kind
        callers := row.callers.map tokenCaller
        requirement := none
        delegation := none }
    { id := row.id, rules := anonymous, digest := requirementDigest anonymous }
  | some requirement =>
    -- Neither `cache` nor `authorization` is copied here.
    let credentialed : EndpointRules :=
      { method := row.method.pattern
        path := row.path
        admission := row.admission
        crossOrigin := row.crossOrigin
        response := row.response
        kind := rowKind row.kind
        callers := row.callers.map tokenCaller
        requirement := some requirement
        delegation := endpointDelegation artifact row }
    { id := row.id, rules := credentialed, digest := requirementDigest credentialed }

def opsRowRules : EndpointRules :=
  { kind := .protocol
    method := .post
    path := "/__fabrika/ops/*"
    callers := []
    requirement := none
    admission := some { contentTypes := ["application/json"], maxBytes := some (64 * 1024) }
    delegation := none
    oauth := none }

def opsProxyRow : ProxyEndpointRow :=
  { id := "__fabrika.ops", rules := opsRowRules, digest := requirementDigest opsRowRules }

/-- The manifest form of a compiled contract; `ops` is what only platform composition asks for. -/
def contractProxyTable (artifact : ContractArtifact) (digest : String) (ops : Bool) : ContractProxyTable :=
  { endpoints := artifact.endpoints.map (proxyRow artifact) ++ if ops then [opsProxyRow] else []
    reservedPrefixes := artifact.reservedPrefixes
    snapshot := digest
    csp := cspOrigins artifact.csp }

/-! ## The header -/

/-- `DIGEST_PATTERN`. -/
def isDigest (value : String) : Bool :=
  Text.startsWith value "sha256:" && (value.toList.drop 7).length == 64 && (value.toList.drop 7).all Text.isHexDigit

def lastIndexOf (c : Char) : List Char → Option Nat
  | [] => none
  | d :: rest =>
    match lastIndexOf c rest with
    | some index => some (index + 1)
    | none => if d = c then some 0 else none

def parseEndpointHeader (value : String) : Option (String × String) :=
  match lastIndexOf '@' value.toList with
  | none => none
  | some separator =>
    let id := String.ofList (value.toList.take separator)
    let digest := String.ofList (value.toList.drop (separator + 1))
    if separator = 0 || !isDigest digest then none else some (id, digest)

/-! ## One digest for both sides -/

/-- A row whose `cache` and `authorization` the producer does not lose. -/
def EndpointRow.KeepsItsFields (row : EndpointRow) : Prop :=
  row.requirement ≠ none → row.cache = none ∧ row.forwardsAuthorization = false

variable {α : Type} {a b : Option α}

theorem endpointDelegation_of_anonymous {artifact : ContractArtifact} {row : EndpointRow} (h : row.requirement = none) :
    endpointDelegation artifact row = none := by
  simp [endpointDelegation, h]

theorem proxyRow_digest {artifact : ContractArtifact} {row : EndpointRow} (h : EndpointRow.KeepsItsFields row) :
    (proxyRow artifact row).digest = endpointDigest artifact row := by
  unfold proxyRow
  split
  · rename_i hnone
    simp only [endpointDigest, hnone, endpointDelegation_of_anonymous hnone]
  · rename_i requirement hsome
    obtain ⟨hcache, hauth⟩ := h (by simp [hsome])
    simp only [endpointDigest, hsome, hcache, hauth]

theorem proxyRow_describesItsRules (artifact : ContractArtifact) (row : EndpointRow) :
    (proxyRow artifact row).describesItsRules = true := by
  unfold proxyRow
  split <;> simp [ProxyEndpointRow.describesItsRules]

theorem proxyRow_id (artifact : ContractArtifact) (row : EndpointRow) : (proxyRow artifact row).id = row.id := by
  unfold proxyRow
  split <;> rfl

/-! ## What one digested text says of two rows -/

theorem rowKind_text_inj {a b : RowKind} (h : a.text = b.text) : a = b := by
  cases a <;> cases b <;> first | rfl | exact absurd h (by decide)

theorem method_text_inj {a b : EndpointMethod} (h : a.text = b.text) : a = b := by
  cases a <;> cases b <;> first | rfl | exact absurd h (by decide)

theorem startsWith_callerText (caller : TokenCaller) :
    Text.startsWith (callerText caller) "app:" = true ↔ ∃ id, caller = .app id := by
  cases caller with
  | app id => simp [callerText, String.toList_append]
  | _ => simp only [reduceCtorEq, exists_false, iff_false]; decide

theorem callerText_injective : Function.Injective callerText := by
  intro a b h
  have hiff : (∃ id, a = .app id) ↔ ∃ id, b = .app id := by rw [← startsWith_callerText, h, startsWith_callerText]
  cases a with
  | app i =>
    obtain ⟨j, rfl⟩ := hiff.mp ⟨i, rfl⟩
    have htext := congrArg String.toList h
    simp only [callerText, String.toList_append, List.append_cancel_left_eq] at htext
    rw [String.toList_inj.mp htext]
  | _ =>
    cases b with
    | app j => exact absurd (hiff.mpr ⟨j, rfl⟩) (by simp)
    | _ => first | rfl | exact absurd h (by decide)

theorem delegationText_inj {a b : EndpointDelegation} (h : delegationText a = delegationText b) : a = b := by
  cases a <;> cases b <;> first | rfl | exact absurd h (by decide)

theorem crossOriginText_inj {a b : CrossOriginForm} (h : crossOriginText a = crossOriginText b) : a = b := by
  cases a <;> cases b <;> first | rfl | exact absurd h (by decide)

theorem responseText_inj {a b : EndpointResponse} (h : responseText a = responseText b) : a = b := by
  cases a <;> cases b <;> first | rfl | exact absurd h (by decide)

/-- The same requirement, up to the order in which capabilities are named. -/
def SameRequirement : EndpointRequirement → EndpointRequirement → Prop
  | .capabilities a, .capabilities b => a.Perm b
  | a, b => a = b

/-- The same body admission, up to the order of its content types. -/
def SameAdmission (a b : BodyAdmission) : Prop := a.contentTypes.Perm b.contentTypes ∧ a.maxBytes = b.maxBytes

/-- Two rows that differ in nothing the proxy applies. -/
structure SameRules (a b : EndpointRules) : Prop where
  kind : a.kind = b.kind
  method : a.method = b.method
  path : a.path = b.path
  callers : a.callers.Perm b.callers
  requirement : Option.Rel SameRequirement a.requirement b.requirement
  admission : Option.Rel SameAdmission a.admission b.admission
  delegation : a.delegation = b.delegation
  oauth : Option.Rel List.Perm a.oauth b.oauth
  crossOrigin : a.crossOrigin = b.crossOrigin
  response : a.response = b.response
  cache : a.cache = b.cache
  forwardsAuthorization : a.forwardsAuthorization = b.forwardsAuthorization

theorem namesJson_inj {a b : List String} (h : normal (namesJson a) = normal (namesJson b)) : a = b := by
  simp only [namesJson, Json.normal_arr, List.map_map, Json.arr.injEq] at h
  exact List.map_injective_iff.mpr (fun _ _ => Json.normal_text_inj.mp) h

theorem sorted_perm_of_eq {a b : List String} (h : sorted a = sorted b) : a.Perm b :=
  (perm_sorted a).symm.trans (h ▸ perm_sorted b)

/-- `null` or a value, told apart where no value's JSON is `null`. -/
theorem orNull_rel {json : α → Json Nat} {R : α → α → Prop} (hnull : ∀ a, normal (json a) ≠ normal .null)
    (hjson : ∀ a b, normal (json a) = normal (json b) → R a b) (h : normal (orNull json a) = normal (orNull json b)) :
    Option.Rel R a b := by
  cases a with
  | none =>
    cases b with
    | none => exact .none
    | some b => exact absurd h.symm (hnull b)
  | some a =>
    cases b with
    | none => exact absurd h (hnull a)
    | some b => exact .some (hjson a b h)

theorem object_ne_null (fields : List (String × Json Nat)) : normal (object fields) ≠ normal .null := by
  simp [object, normal]

theorem text_ne_null (s : String) : normal (text s : Json Nat) ≠ normal .null := by
  simp [text, normal]

theorem rel_eq (h : Option.Rel (· = ·) a b) : a = b := by
  cases h with
  | none => rfl
  | some h => rw [h]

@[simp] theorem normal_orNull_text_inj {a b : Option String} : normal (orNull text a) = normal (orNull text b) ↔ a = b := by
  constructor
  · intro h
    exact rel_eq (orNull_rel text_ne_null (fun _ _ => Json.normal_text_inj.mp) h)
  · rintro rfl
    rfl

theorem nodup_accessFields (access : AccessForm) : ((accessFields access).map Prod.fst).Nodup := by
  cases access <;> simp [accessFields]

theorem accessJson_inj {a b : AccessForm} (h : normal (accessJson a) = normal (accessJson b)) : a = b := by
  have hfield := Json.object_lookup_eq (nodup_accessFields a) (nodup_accessFields b) h
  have hform := hfield "form"
  have hdimension := hfield "dimension"
  have hfrom := hfield "from"
  clear hfield h
  cases a <;> cases b <;> simp_all [accessFields, List.lookup_cons]

theorem capabilityJson_inj {a b : CapabilityRequirement} (h : normal (capabilityJson a) = normal (capabilityJson b)) : a = b := by
  have hfield := Json.object_lookup_eq (by simp) (by simp) h
  have haction := hfield "action"
  have haccess := hfield "access"
  simp only [List.lookup_cons, String.reduceBEq, Option.map_some, Option.some.injEq, Json.normal_text_inj] at haction haccess
  obtain ⟨action, access⟩ := a
  obtain ⟨action', access'⟩ := b
  rw [CapabilityRequirement.mk.injEq]
  exact ⟨haction, accessJson_inj haccess⟩

/-- Capabilities written in one text are the same ones, in some order. -/
theorem capabilities_perm {a b : List (String × CapabilityRequirement)}
    (h : normal (object (a.map (Prod.map id capabilityJson))) = normal (object (b.map (Prod.map id capabilityJson)))) :
    a.Perm b := by
  have hperm := Json.fields_perm_of_normal_eq h
  simp only [Json.names, List.map_map] at hperm
  refine (List.map_perm_map_iff ?_).mp hperm
  rintro ⟨name, capability⟩ ⟨name', capability'⟩ he
  simp only [Function.comp_apply, Prod.map_apply, id, Prod.mk.injEq] at he
  rw [codeUnits_injective he.1, capabilityJson_inj he.2]

theorem nodup_requirementFields (requirement : EndpointRequirement) : ((requirementFields requirement).map Prod.fst).Nodup := by
  cases requirement <;> simp [requirementFields]

theorem requirementJson_inj {a b : EndpointRequirement} (h : normal (requirementJson a) = normal (requirementJson b)) :
    SameRequirement a b := by
  have hfield := Json.object_lookup_eq (nodup_requirementFields a) (nodup_requirementFields b) h
  have hkind := hfield "kind"
  have haction := hfield "action"
  have haccess := hfield "access"
  have hcapabilities := hfield "capabilities"
  clear hfield h
  cases a <;> cases b <;> simp [requirementFields, List.lookup_cons] at hkind haction haccess hcapabilities
  case member.member => rfl
  case authenticated.authenticated => rfl
  case action.action a b =>
    have hab : a = b := by
      obtain ⟨action, access⟩ := a
      rw [CapabilityRequirement.mk.injEq]
      exact ⟨haction, accessJson_inj haccess⟩
    rw [hab]
    rfl
  case capabilities.capabilities a b => exact capabilities_perm hcapabilities

theorem admissionJson_inj {a b : BodyAdmission}
    (h : normal (admissionJson (canonicalAdmission a)) = normal (admissionJson (canonicalAdmission b))) : SameAdmission a b := by
  have hfield := Json.object_lookup_eq (by simp) (by simp) h
  have htypes := hfield "contentTypes"
  have hbytes := hfield "maxBytes"
  simp only [List.lookup_cons, String.reduceBEq, Option.map_some, Option.some.injEq] at htypes hbytes
  refine ⟨sorted_perm_of_eq (namesJson_inj htypes), rel_eq (orNull_rel ?_ ?_ hbytes)⟩
  · intro n
    simp [normal]
  · intro m n hmn
    simpa [normal] using hmn

theorem cacheJson_inj {a b : EndpointCache} (h : normal (cacheJson a) = normal (cacheJson b)) : a = b := by
  cases a with
  | immutable =>
    cases b with
    | immutable => rfl
    | maxAgeSeconds n => simp [cacheJson, text, object, normal] at h
  | maxAgeSeconds m =>
    cases b with
    | immutable => simp [cacheJson, text, object, normal] at h
    | maxAgeSeconds n =>
      have hseconds := Json.object_lookup_eq (by simp) (by simp) h "maxAgeSeconds"
      simpa [List.lookup_cons, normal] using hseconds

/-- A field that is written only when it has a value. -/
theorem present_rel {json : α → Json Nat} {R : α → α → Prop} (hjson : ∀ a b, normal (json a) = normal (json b) → R a b)
    (h : (a.map json).map normal = (b.map json).map normal) : Option.Rel R a b := by
  cases a with
  | none =>
    cases b with
    | none => exact .none
    | some b => simp at h
  | some a =>
    cases b with
    | none => simp at h
    | some b => exact .some (hjson a b (by simpa using h))

theorem nodup_appliedFields (rules : EndpointRules) : ((appliedFields rules).map Prod.fst).Nodup := by
  obtain ⟨kind, method, path, callers, requirement, admission, delegation, oauth, crossOrigin, response, cache, forwards⟩ := rules
  cases oauth <;> cases crossOrigin <;> cases response <;> cases cache <;> cases forwards <;> simp [appliedFields, present]

theorem appliedJson_inj {a b : EndpointRules} (h : appliedJson a = appliedJson b) : SameRules a b := by
  have hfield := Json.object_lookup_eq (nodup_appliedFields a) (nodup_appliedFields b) (Json.canonicalText_eq_iff.mp h)
  have hkind := hfield "kind"
  have hmethod := hfield "method"
  have hpath := hfield "path"
  have hcallers := hfield "callers"
  have hrequirement := hfield "requirement"
  have hadmission := hfield "admission"
  have hdelegation := hfield "delegation"
  have hoauth := hfield "oauth"
  have hcrossOrigin := hfield "crossOrigin"
  have hresponse := hfield "response"
  have hcache := hfield "cache"
  have hforwards := hfield "authorization"
  simp only [appliedFields, List.lookup_append, List.lookup_cons, List.lookup_nil, Json.lookup_present, String.reduceBEq,
    String.reduceEq, if_true, if_false, Option.or_none, Option.none_or, Option.map_some,
    Option.some.injEq, Json.normal_text_inj] at *
  refine
    { kind := rowKind_text_inj hkind
      method := method_text_inj hmethod
      path := hpath
      callers := (List.map_perm_map_iff callerText_injective).mp (sorted_perm_of_eq (namesJson_inj hcallers))
      requirement := orNull_rel (fun _ => object_ne_null _) (fun _ _ => requirementJson_inj) hrequirement
      admission := orNull_rel (fun _ => object_ne_null _) (fun _ _ => admissionJson_inj) hadmission
      delegation := rel_eq (orNull_rel (fun _ => text_ne_null _) ?_ hdelegation)
      oauth := present_rel ?_ hoauth
      crossOrigin := rel_eq (present_rel ?_ hcrossOrigin)
      response := rel_eq (present_rel ?_ hresponse)
      cache := rel_eq (present_rel (fun _ _ => cacheJson_inj) hcache)
      forwardsAuthorization := ?_ }
  · intro x y hxy
    exact delegationText_inj (Json.normal_text_inj.mp hxy)
  · intro x y hxy
    have hscopes := Json.object_lookup_eq (by simp) (by simp) hxy "scopes"
    exact sorted_perm_of_eq (namesJson_inj (by simpa [List.lookup_cons] using hscopes))
  · intro x y hxy
    exact crossOriginText_inj (Json.normal_text_inj.mp hxy)
  · intro x y hxy
    exact responseText_inj (Json.normal_text_inj.mp hxy)
  · cases ha : a.forwardsAuthorization <;> cases hb : b.forwardsAuthorization <;> simp_all

/-! ## The header is read back -/

theorem lastIndexOf_eq_none {c : Char} {cs : List Char} (h : c ∉ cs) : lastIndexOf c cs = none := by
  induction cs with
  | nil => rfl
  | cons d rest ih =>
    rw [List.mem_cons, not_or] at h
    rw [lastIndexOf, ih h.2]
    exact if_neg (Ne.symm h.1)

theorem lastIndexOf_append (a : List Char) {b : List Char} {c : Char} (h : c ∉ b) :
    lastIndexOf c (a ++ c :: b) = some a.length := by
  induction a with
  | nil => simp [lastIndexOf, lastIndexOf_eq_none h]
  | cons d rest ih => simp [lastIndexOf, ih]

theorem not_mem_digest {digest : String} (h : isDigest digest = true) : '@' ∉ digest.toList := by
  simp only [isDigest, Bool.and_eq_true, Text.startsWith_iff, List.all_eq_true] at h
  obtain ⟨⟨hstart, _⟩, hhex⟩ := h
  intro hmem
  rw [← List.take_append_drop 7 digest.toList, List.mem_append] at hmem
  rcases hmem with hmem | hmem
  · have htake : digest.toList.take 7 = "sha256:".toList := by
      obtain ⟨rest, hrest⟩ := hstart
      rw [← hrest]
      rfl
    rw [htake] at hmem
    exact absurd hmem (by decide)
  · exact absurd (hhex _ hmem) (by decide)

theorem parse_format {id digest : String} (hid : id ≠ "") (hdigest : isDigest digest = true) :
    parseEndpointHeader (formatEndpointHeader id digest) = some (id, digest) := by
  have hchars : (formatEndpointHeader id digest).toList = id.toList ++ '@' :: digest.toList := by
    simp [formatEndpointHeader, String.toList_append]
  have hlength : id.toList.length ≠ 0 := by simpa using hid
  rw [parseEndpointHeader, hchars, lastIndexOf_append _ (not_mem_digest hdigest)]
  simp [hdigest, hid]

theorem isDigest_requirementDigest (rules : EndpointRules) : isDigest (requirementDigest rules) = true := by
  have hlist : (requirementDigest rules).toList = "sha256:".toList ++ (sha256Hex (appliedJson rules)).toList := by
    rw [requirementDigest, digestOf, String.toList_append]
  have hdrop : (requirementDigest rules).toList.drop 7 = (sha256Hex (appliedJson rules)).toList := by
    rw [hlist]
    rfl
  simp only [isDigest, hdrop, length_sha256Hex, Bool.and_eq_true, Text.startsWith_iff, List.all_eq_true]
  refine ⟨⟨?_, rfl⟩, fun c hc => isHexDigit_of_mem_sha256Hex hc⟩
  rw [hlist]
  exact List.prefix_append _ _

/-! ## The proxy and the application -/

theorem endpoint_digests_agree (artifact : ContractArtifact) (digest : String) (ops : Bool)
    (h : ∀ row ∈ artifact.endpoints, EndpointRow.KeepsItsFields row) :
    (∃ rows, (contractProxyTable artifact digest ops).endpoints = rows ++ (if ops then [opsProxyRow] else []) ∧
      List.Forall₂ (fun row proxied => proxied.id = row.id ∧ proxied.digest = endpointDigest artifact row ∧
        requirementDigest proxied.rules = proxied.digest ∧ proxied.describesItsRules = true) artifact.endpoints rows) ∧
    (∀ a b : EndpointRules, appliedJson a = appliedJson b → SameRules a b) ∧
    (∀ rules : EndpointRules, isDigest (requirementDigest rules) = true) ∧
    (∀ id digest : String, id ≠ "" → isDigest digest = true →
      parseEndpointHeader (formatEndpointHeader id digest) = some (id, digest)) := by
  refine ⟨⟨artifact.endpoints.map (proxyRow artifact), rfl, ?_⟩, fun _ _ => appliedJson_inj, isDigest_requirementDigest,
    fun _ _ => parse_format⟩
  rw [List.forall₂_map_right_iff, List.forall₂_same]
  intro row hrow
  have hdescribes := proxyRow_describesItsRules artifact row
  have hdigest : (proxyRow artifact row).digest = requirementDigest (proxyRow artifact row).rules := by
    simpa [ProxyEndpointRow.describesItsRules] using hdescribes
  exact ⟨proxyRow_id artifact row, proxyRow_digest (h row hrow), hdigest.symm, hdescribes⟩

/-- A member's query of two content types, and a public query that caches its answer. -/
def notesContract : ContractArtifact :=
  { app := "notes"
    endpoints :=
      [ { id := "notes.list"
          source := { kind := .mount, name := "api" }
          method := .post
          path := "/api/notes.list"
          access := .credentialed .query [.machine, .human] .member
          admission := some { contentTypes := ["text/plain", "application/json"], maxBytes := some 1024 } },
        { id := "notes.latest"
          source := { kind := .mount, name := "api" }
          method := .get
          path := "/api/notes.latest"
          access := .anonymous .public
          admission := none
          cache := some (.maxAgeSeconds 60) } ]
    reservedPrefixes := ["/api"] }

theorem notesContract_digests_agree :
    (∃ rows, (contractProxyTable notesContract "sha256:" true).endpoints = rows ++ [opsProxyRow] ∧ rows.length = 2 ∧
      ∀ row ∈ rows, row.describesItsRules = true) ∧
    appliedJson { opsRowRules with callers := [.human, .oauth] } =
    appliedJson { opsRowRules with callers := [.oauth, .human] } := by
  obtain ⟨⟨rows, heq, hrows⟩, -, -, -⟩ := endpoint_digests_agree notesContract "sha256:" true (by
    intro row hrow
    simp only [notesContract, List.mem_cons, List.not_mem_nil, or_false] at hrow
    rcases hrow with rfl | rfl
    · exact fun _ => ⟨rfl, rfl⟩
    · exact fun hsome => absurd rfl hsome)
  refine ⟨⟨rows, heq, hrows.length_eq.symm, fun row hrow => ?_⟩, by decide +kernel⟩
  obtain ⟨i, hi, rfl⟩ := List.mem_iff_getElem.mp hrow
  exact (hrows.get (by rw [hrows.length_eq]; exact hi) hi).2.2.2

end Fabrika.Proxy
