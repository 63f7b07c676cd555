/-
  Fabrika.AuthCore.TokenProofs — access-token claims survive the wire.

  Claims that were built are read as they were built (`parseOnWire_built`): the builder's checks
  are the ones the parser makes. A resource token joins its scopes with spaces, so its scopes come
  back exactly when none holds a space (`resource_scopes`); the builder checks only that the parts
  are valid, and takes the scope `a b` as two (`spaced_scope_splits`). What is read at all is of
  one kind (`exclusive_of_parses`, `one_profile`).
-/

import Fabrika.AuthCore.Token
import Fabrika.Lib.Keeps

namespace Fabrika.AuthCore.Token

open Fabrika.Lib
open Fabrika.Lib.Double (Number)

variable {P : Platform}

/-! ## What a parsed payload holds -/

/-- Each claim is read from its own member, and the kinds of token exclude one another. -/
structure Parses (P : Platform) (payload : Payload) (claims : AccessTokenClaims) : Prop where
  iss : stringField (some payload) "iss" = some claims.iss
  aud : stringField (some payload) "aud" = some claims.aud
  sub : stringField (some payload) "sub" = some claims.sub
  iat : numberField (some payload) "iat" = some claims.iat
  exp : numberField (some payload) "exp" = some claims.exp
  perms : parsePermissionEntries (prop (some payload) "perms") = some claims.perms
  label : parseNullableString (prop (some payload) "label") = some claims.label
  ptype : parseOptionalPrincipalType (prop (some payload) "ptype") = some claims.ptype
  oauth : parseOAuthClaims P (some payload) = some claims.oauth
  oauthOnly : claims.oauth.isSome = true → claims.ptype = some .user ∧ isOAuthResourceUri P claims.aud = true
  link : parseLinkClaims (prop (some payload) "link") = some claims.link
  linkOnly : claims.link.isSome = true → claims.ptype = none ∧ claims.oauth = none
  workload : parseWorkload (prop (some payload) "workload") claims.ptype = some claims.workload
  email : parseEmail P (prop (some payload) "email") claims.ptype = some claims.email
  session : parseSession (prop (some payload) "session") claims.ptype claims.oauth = some claims.session
  terminal : parseTerminalClaims (prop (some payload) "amr") (prop (some payload) "terminal") = some claims.terminal
  terminalOnly : claims.terminal.isSome = true → claims.ptype = some .user ∧ claims.session = true ∧ claims.oauth = none
  amr : claims.amr = claims.terminal.isSome

variable {claims : AccessTokenClaims} {payload : Payload} {value : Option Payload} {key : String} {number : Number}
variable {params : ResourceAccessTokenParams}

theorem nullIf_eq_some {refused : Bool} {u : Unit} : nullIf refused = some u ↔ refused = false := by
  cases refused <;> simp [nullIf]

theorem parses_of_parse (h : parseAccessClaims P payload = some claims) : Parses P payload claims := by
  unfold parseAccessClaims at h
  obtain ⟨iss, hiss, h⟩ := Option.bind_eq_some_iff.mp h
  obtain ⟨aud, haud, h⟩ := Option.bind_eq_some_iff.mp h
  obtain ⟨sub, hsub, h⟩ := Option.bind_eq_some_iff.mp h
  obtain ⟨iat, hiat, h⟩ := Option.bind_eq_some_iff.mp h
  obtain ⟨exp, hexp, h⟩ := Option.bind_eq_some_iff.mp h
  obtain ⟨perms, hperms, h⟩ := Option.bind_eq_some_iff.mp h
  obtain ⟨label, hlabel, h⟩ := Option.bind_eq_some_iff.mp h
  obtain ⟨ptype, hptype, h⟩ := Option.bind_eq_some_iff.mp h
  obtain ⟨oauth, hoauth, h⟩ := Option.bind_eq_some_iff.mp h
  obtain ⟨_, hoauthOnly, h⟩ := Option.bind_eq_some_iff.mp h
  obtain ⟨link, hlink, h⟩ := Option.bind_eq_some_iff.mp h
  obtain ⟨_, hlinkOnly, h⟩ := Option.bind_eq_some_iff.mp h
  obtain ⟨workload, hworkload, h⟩ := Option.bind_eq_some_iff.mp h
  obtain ⟨email, hemail, h⟩ := Option.bind_eq_some_iff.mp h
  obtain ⟨session, hsession, h⟩ := Option.bind_eq_some_iff.mp h
  obtain ⟨terminal, hterminal, h⟩ := Option.bind_eq_some_iff.mp h
  obtain ⟨_, hterminalOnly, h⟩ := Option.bind_eq_some_iff.mp h
  cases h
  rw [nullIf_eq_some] at hoauthOnly hlinkOnly hterminalOnly
  refine ⟨hiss, haud, hsub, hiat, hexp, hperms, hlabel, hptype, hoauth, ?_, hlink, ?_, hworkload, hemail, hsession,
    hterminal, ?_, rfl⟩
  · intro hsome
    dsimp only at hsome ⊢
    simpa [hsome] using hoauthOnly
  · intro hsome
    dsimp only at hsome ⊢
    simpa [hsome] using hlinkOnly
  · intro hsome
    dsimp only at hsome ⊢
    simpa [hsome, and_assoc] using hterminalOnly

theorem parse_of_parses (h : Parses P payload claims) : parseAccessClaims P payload = some claims := by
  have hoauth : nullIf (claims.oauth.isSome && (claims.ptype ≠ some .user || !isOAuthResourceUri P claims.aud)) = some () := by
    rw [nullIf_eq_some]
    cases hsome : claims.oauth.isSome with
    | false => rfl
    | true => simp [h.oauthOnly hsome]
  have hlink : nullIf (claims.link.isSome && (claims.ptype.isSome || claims.oauth.isSome)) = some () := by
    rw [nullIf_eq_some]
    cases hsome : claims.link.isSome with
    | false => rfl
    | true => simp [h.linkOnly hsome]
  have hterminal : nullIf (claims.terminal.isSome && (claims.ptype ≠ some .user || !claims.session || claims.oauth.isSome)) =
      some () := by
    rw [nullIf_eq_some]
    cases hsome : claims.terminal.isSome with
    | false => rfl
    | true => simp [h.terminalOnly hsome]
  simp only [parseAccessClaims, h.iss, h.aud, h.sub, h.iat, h.exp, h.perms, h.label, h.ptype, h.oauth, hoauth, h.link,
    hlink, h.workload, h.email, h.session, h.terminal, hterminal, bind, Option.bind_some, pure]
  rw [← h.amr]

/-! ## What excludes what -/

theorem parseWorkload_eq_some {ptype : Option TokenPrincipalType} {workload : Option Units}
    (h : parseWorkload value ptype = some workload) : workload.isSome = isWorkloadKind ptype := by
  unfold parseWorkload at h
  unfold isWorkloadKind
  cases hkind : ptype.bind TokenPrincipalType.workloadKind with
  | none =>
    rw [hkind] at h
    dsimp only at h
    split at h
    · cases h
      rfl
    · cases h
  | some kind =>
    rw [hkind] at h
    dsimp only at h
    split at h
    · split at h
      · cases h
        rfl
      · cases h
    · cases h

theorem parseSession_of_oauth {ptype : Option TokenPrincipalType} {oauth : Option OAuthTokenClaims} {session : Bool}
    (h : parseSession value ptype oauth = some session) (hoauth : oauth.isSome = true) : session = false := by
  unfold parseSession at h
  split at h
  · cases h
    rfl
  · rw [hoauth, Bool.or_true, if_pos rfl] at h
    cases h
  · cases h

/-- A resource token is nothing else. -/
structure Exclusive (claims : AccessTokenClaims) : Prop where
  link : claims.oauth.isSome = true → claims.link = none
  session : claims.oauth.isSome = true → claims.session = false
  terminal : claims.oauth.isSome = true → claims.terminal = none ∧ claims.amr = false
  workload : claims.oauth.isSome = true → claims.workload = none
  workloadKind : claims.workload.isSome = isWorkloadKind claims.ptype

theorem exclusive_of_parses (h : Parses P payload claims) : Exclusive claims := by
  have hkind := parseWorkload_eq_some h.workload
  have hterminal : claims.oauth.isSome = true → claims.terminal = none := by
    intro hoauth
    cases hsome : claims.terminal.isSome with
    | false => simpa using hsome
    | true =>
      rw [(h.terminalOnly hsome).2.2] at hoauth
      cases hoauth
  refine ⟨?_, parseSession_of_oauth h.session, ?_, ?_, hkind⟩
  · intro hoauth
    cases hsome : claims.link.isSome with
    | false => simpa using hsome
    | true =>
      rw [(h.linkOnly hsome).2] at hoauth
      cases hoauth
  · intro hoauth
    refine ⟨hterminal hoauth, ?_⟩
    rw [h.amr, hterminal hoauth]
    rfl
  · intro hoauth
    have huser : isWorkloadKind (some .user) = false := rfl
    rw [(h.oauthOnly hoauth).1, huser] at hkind
    simpa using hkind

/-- No claims pass as an application's token and as a resource's. -/
theorem one_profile (claims : AccessTokenClaims) (app app' resource : Units) :
    ¬(matchesTokenAudience claims (.app app) = true ∧ matchesTokenAudience claims (.resource app' resource) = true) := by
  unfold matchesTokenAudience
  rintro ⟨happ, hresource⟩
  cases hoauth : claims.oauth with
  | none => simp [hoauth] at hresource
  | some oauth => simp [hoauth] at happ

/-! ## Objects of named members -/

theorem prop_object (fields : List (String × Payload)) (key : String) :
    prop (some (Json.object fields)) key = fields.lookup key :=
  Json.lookup_names fields key

/-! ## Claims read from their own JSON -/

/-- `Number.isFinite`. -/
def IsFinite (number : Number) : Prop := number = .negZero ∨ ∃ x, number = .finite x

theorem stringField_object {fields : List (String × Payload)} {text : Units} (h : fields.lookup key = some (.str text)) :
    stringField (some (Json.object fields)) key = some text := by
  rw [stringField, prop_object, h]

theorem parseScope_json (scope : Scope) : parseScope (some scope.json) = some (some scope) := by
  have htype : stringField (some scope.json) "type" = some scope.type := stringField_object (by simp)
  have hvalue : stringField (some scope.json) "value" = some scope.value := stringField_object (by simp [List.lookup_cons])
  unfold parseScope
  split
  · rename_i heq
    cases heq
  · rw [htype, hvalue]

theorem parseSource_text (source : PermissionSource) : parseSource (some (.str source.text)) = some source := by
  cases source with
  | grant => rfl
  | bootstrap => rfl
  | terminal => rfl
  | group ref =>
    -- No other source starts like a group's.
    have hne : ∀ word : String, (codeUnits word).take 6 ≠ codeUnits "group:" → codeUnits "group:" ++ ref ≠ codeUnits word := by
      intro word hword heq
      apply hword
      rw [← heq]
      rfl
    have hstarts : startsWith (codeUnits "group:" ++ ref) (codeUnits "group:") = true := by
      rw [startsWith, List.isPrefixOf_iff_prefix]
      exact List.prefix_append _ _
    rw [parseSource, PermissionSource.text, if_neg (hne "grant" (by decide)), if_neg (hne "bootstrap" (by decide)),
      if_neg (hne "terminal" (by decide)), if_pos hstarts, List.drop_left]

theorem parseEntry_json (entry : PermissionEntry) : parseEntry entry.json = some entry := by
  obtain ⟨action, scope, source⟩ := entry
  have haction : stringField (some (PermissionEntry.json ⟨action, scope, source⟩)) "action" = some action :=
    stringField_object (by simp)
  have hscope : parseScope (prop (some (PermissionEntry.json ⟨action, scope, source⟩)) "scope") = some scope := by
    have hprop : prop (some (PermissionEntry.json ⟨action, scope, source⟩)) "scope" = some (nullable Scope.json scope) := by
      rw [PermissionEntry.json, prop_object]
      simp [List.lookup_cons]
    rw [hprop]
    cases scope with
    | none => rfl
    | some scope => exact parseScope_json scope
  have hsource : parseSource (prop (some (PermissionEntry.json ⟨action, scope, source⟩)) "source") = some source := by
    have hprop : prop (some (PermissionEntry.json ⟨action, scope, source⟩)) "source" = some (.str source.text) := by
      rw [PermissionEntry.json, prop_object]
      simp [List.lookup_cons]
    rw [hprop, parseSource_text]
  rw [parseEntry, haction, hscope, hsource]

/-- A list every item of which is read back is read back. -/
theorem mapM_map {α β : Type} {f : β → Option α} {json : α → β} (h : ∀ a, f (json a) = some a) (as : List α) :
    (as.map json).mapM f = some as := by
  induction as with
  | nil => rfl
  | cons a as ih =>
    rw [List.map_cons, List.mapM_cons, h, ih]
    rfl

theorem principalTypeOf_text (type : TokenPrincipalType) : principalTypeOf (codeUnits type.text) = some type := by
  cases type with
  | user => rfl
  | service => rfl
  | workload kind => cases kind <;> rfl

/-- What `buildAccessClaims` ensures, with what the claim asks of the caller: finite times, and a
    mount and a chain for a link. -/
structure Built (P : Platform) (claims : AccessTokenClaims) : Prop where
  iat : IsFinite claims.iat
  exp : IsFinite claims.exp
  workload : parseWorkload (claims.workload.map .str) claims.ptype = some claims.workload
  email : ∀ email ∈ claims.email, claims.ptype = some .user ∧ isNormalizedMailbox P email = true
  session : claims.session = true → claims.ptype.isSome = true ∧ isWorkloadKind claims.ptype = false
  terminal : ∀ terminal ∈ claims.terminal, claims.ptype = some .user ∧ claims.session = true ∧ terminal.id ≠ [] ∧
    terminal.label ≠ []
  amr : claims.amr = claims.terminal.isSome
  oauth : claims.oauth = none
  link : ∀ link ∈ claims.link, claims.ptype = none ∧ link.mount ≠ [] ∧ link.chain ≠ []

theorem parseLinkClaims_json {link : LinkTokenClaims} (hmount : link.mount ≠ []) (hchain : link.chain ≠ []) :
    parseLinkClaims (some link.json) = some (some link) := by
  have hfield : stringField (some link.json) "mount" = some link.mount := stringField_object (by simp)
  have hprop : prop (some link.json) "chain" = some (.arr (link.chain.map Scope.json)) := by
    rw [LinkTokenClaims.json, prop_object]
    simp [List.lookup_cons]
  have hscopes : (link.chain.map Scope.json).mapM (fun item => (parseScope (some item)).join) = some link.chain :=
    mapM_map (fun scope => by rw [parseScope_json]; rfl) link.chain
  rw [parseLinkClaims, hfield, hprop]
  dsimp only
  rw [if_neg (by simp [hmount, hchain]), hscopes]
  rfl

theorem parseTerminalClaims_json {terminal : TerminalTokenClaims} (hid : terminal.id ≠ []) (hlabel : terminal.label ≠ []) :
    parseTerminalClaims (some (Json.text terminalAuthenticationMethod)) (some terminal.json) = some (some terminal) := by
  have hidField : stringField (some terminal.json) "id" = some terminal.id := stringField_object (by simp)
  have hlabelField : stringField (some terminal.json) "label" = some terminal.label :=
    stringField_object (by simp [List.lookup_cons])
  unfold parseTerminalClaims
  rw [if_neg (by simp)]
  dsimp only [Json.text]
  rw [if_neg (by simp), hidField, hlabelField]
  dsimp only
  rw [if_pos (by simp [isTerminalClaims, hid, hlabel])]

theorem stringField_of_prop {text : Units} (h : prop value key = some (.str text)) : stringField value key = some text := by
  rw [stringField, h]

theorem numberField_of_prop (h : prop value key = some (.num number)) (hfinite : IsFinite number) :
    numberField value key = some number := by
  rw [numberField, h]
  rcases hfinite with rfl | ⟨x, rfl⟩
  · rfl
  · rfl

/-- The members every token has, looked up in its JSON. -/
theorem prop_json (claims : AccessTokenClaims) :
    prop (some claims.json) "iss" = some (.str claims.iss) ∧ prop (some claims.json) "aud" = some (.str claims.aud) ∧
      prop (some claims.json) "sub" = some (.str claims.sub) ∧ prop (some claims.json) "iat" = some (.num claims.iat) ∧
      prop (some claims.json) "exp" = some (.num claims.exp) ∧
      prop (some claims.json) "perms" = some (.arr (claims.perms.map PermissionEntry.json)) ∧
      prop (some claims.json) "label" = some (nullable .str claims.label) := by
  simp [AccessTokenClaims.json, prop_object, List.lookup_cons]

/-- The members a token may have. -/
theorem prop_json_optional (claims : AccessTokenClaims) :
    prop (some claims.json) "ptype" = claims.ptype.map (fun type => Json.text type.text) ∧
      prop (some claims.json) "workload" = claims.workload.map .str ∧ prop (some claims.json) "email" = claims.email.map .str ∧
      prop (some claims.json) "session" = flag claims.session (.bool true) ∧
      prop (some claims.json) "amr" = flag claims.amr (Json.text terminalAuthenticationMethod) ∧
      prop (some claims.json) "terminal" = claims.terminal.map TerminalTokenClaims.json ∧
      prop (some claims.json) "link" = claims.link.map LinkTokenClaims.json := by
  simp [AccessTokenClaims.json, prop_object, List.lookup_append, List.lookup_cons]

/-- The members of an OAuth token, which no other token has. -/
theorem prop_json_oauth (claims : AccessTokenClaims) :
    prop (some claims.json) "app" = none ∧ prop (some claims.json) "client_id" = none ∧ prop (some claims.json) "scope" = none ∧
      prop (some claims.json) "grant" = none ∧ prop (some claims.json) "jti" = none := by
  simp [AccessTokenClaims.json, prop_object, List.lookup_append, List.lookup_cons]

theorem parses_json (h : Built P claims) : Parses P claims.json claims := by
  obtain ⟨hiss, haud, hsub, hiat, hexp, hperms, hlabel⟩ := prop_json claims
  obtain ⟨hptype, hworkload, hemail, hsession, hamr, hterminal, hlink⟩ := prop_json_optional claims
  obtain ⟨happ, hclient, hscope, hgrant, hjti⟩ := prop_json_oauth claims
  refine
    { iss := stringField_of_prop hiss, aud := stringField_of_prop haud, sub := stringField_of_prop hsub
      iat := numberField_of_prop hiat h.iat, exp := numberField_of_prop hexp h.exp
      perms := ?_, label := ?_, ptype := ?_, oauth := ?_, oauthOnly := ?_, link := ?_, linkOnly := ?_
      workload := ?_, email := ?_, session := ?_, terminal := ?_, terminalOnly := ?_, amr := h.amr }
  · rw [hperms]
    exact mapM_map parseEntry_json claims.perms
  · rw [hlabel]
    cases claims.label <;> rfl
  · rw [hptype]
    cases htype : claims.ptype with
    | none => rfl
    | some type => simp [parseOptionalPrincipalType, Json.text, principalTypeOf_text]
  · rw [parseOAuthClaims, happ, hclient, hscope, hgrant, hjti, h.oauth]
    rfl
  · rw [h.oauth]
    intro hsome
    cases hsome
  · rw [hlink]
    cases hsome : claims.link with
    | none => rfl
    | some link =>
      obtain ⟨_, hmount, hchain⟩ := h.link link hsome
      exact parseLinkClaims_json hmount hchain
  · intro hsome
    obtain ⟨link, hlink⟩ := Option.isSome_iff_exists.mp hsome
    exact ⟨(h.link link hlink).1, h.oauth⟩
  · rw [hworkload]
    exact h.workload
  · rw [hemail]
    cases hsome : claims.email with
    | none => rfl
    | some email =>
      obtain ⟨huser, hmailbox⟩ := h.email email hsome
      simp [parseEmail, huser, hmailbox]
  · rw [hsession, h.oauth]
    cases hset : claims.session with
    | false => rfl
    | true =>
      obtain ⟨hbound, hkind⟩ := h.session hset
      simp [flag, parseSession, hkind, Option.isSome_iff_ne_none.mp hbound]
  · rw [hamr, hterminal, h.amr]
    cases hsome : claims.terminal with
    | none => rfl
    | some terminal =>
      obtain ⟨_, _, hid, hlabel⟩ := h.terminal terminal hsome
      exact parseTerminalClaims_json hid hlabel
  · intro hsome
    obtain ⟨terminal, hterminal⟩ := Option.isSome_iff_exists.mp hsome
    obtain ⟨huser, hsession, _⟩ := h.terminal terminal hterminal
    exact ⟨huser, hsession, h.oauth⟩

/-! ## The wire -/

/-- A finite number on the wire: `-0` is `0`. -/
def wireNumber : Number → Number
  | .negZero => .finite Double.zero
  | number => number

/-- The same claims, a time of `-0` being `0`, which `===` does not tell apart. -/
def AccessTokenClaims.onWire (claims : AccessTokenClaims) : AccessTokenClaims :=
  { claims with iat := wireNumber claims.iat, exp := wireNumber claims.exp }

theorem onWire_num (h : IsFinite number) : Json.onWire (.num number) = .num (wireNumber number) := by
  rcases h with rfl | ⟨x, rfl⟩
  · rfl
  · rfl

theorem isFinite_wireNumber (h : IsFinite number) : IsFinite (wireNumber number) := by
  rcases h with rfl | ⟨x, rfl⟩
  · exact .inr ⟨_, rfl⟩
  · exact .inr ⟨x, rfl⟩

theorem onWire_text (text : String) : Json.onWire (Json.text text) = Json.text text := rfl

theorem onWire_scope (scope : Scope) : Json.onWire scope.json = scope.json := by
  simp [Scope.json, Json.onWire_object]

theorem onWire_entry (entry : PermissionEntry) : Json.onWire entry.json = entry.json := by
  cases hscope : entry.scope with
  | none => simp [PermissionEntry.json, Json.onWire_object, hscope, nullable]
  | some scope => simp [PermissionEntry.json, Json.onWire_object, hscope, nullable, onWire_scope]

theorem onWire_entries (perms : List PermissionEntry) :
    Json.onWire (.arr (perms.map PermissionEntry.json)) = .arr (perms.map PermissionEntry.json) := by
  rw [Json.onWire_arr, List.map_map]
  congr 1
  exact List.map_congr_left fun entry _ => onWire_entry entry

theorem onWire_nullable (label : Option Units) : Json.onWire (nullable .str label) = nullable .str label := by
  cases label <;> rfl

theorem onWire_terminal (terminal : TerminalTokenClaims) : Json.onWire terminal.json = terminal.json := by
  simp [TerminalTokenClaims.json, Json.onWire_object]

theorem onWire_link (link : LinkTokenClaims) : Json.onWire link.json = link.json := by
  have hchain : (link.chain.map Scope.json).map Json.onWire = link.chain.map Scope.json := by
    rw [List.map_map]
    exact List.map_congr_left fun scope _ => onWire_scope scope
  simp only [LinkTokenClaims.json, Json.onWire_object, List.map_cons, List.map_nil, Prod.map_apply, id_eq, Json.onWire_str,
    Json.onWire_arr, hchain]

theorem onWire_oauth (oauth : OAuthTokenClaims) : Json.onWire oauth.json = oauth.json := by
  have hscopes : (oauth.scopes.map (Json.str (N := Number))).map Json.onWire = oauth.scopes.map Json.str := by
    rw [List.map_map]
    exact List.map_congr_left fun scope _ => rfl
  simp only [OAuthTokenClaims.json, Json.onWire_object, List.map_cons, List.map_nil, Prod.map_apply, id_eq, Json.onWire_str,
    Json.onWire_arr, hscopes]

theorem map_onWire {α : Type} {json : α → Payload} (h : ∀ a, Json.onWire (json a) = json a) (value : Option α) :
    (value.map json).map Json.onWire = value.map json := by
  cases value with
  | none => rfl
  | some a => rw [Option.map_some, Option.map_some, h]

theorem flag_onWire (set : Bool) {value : Payload} (h : Json.onWire value = value) :
    (flag set value).map Json.onWire = flag set value := by
  cases set with
  | false => rfl
  | true => rw [flag, if_pos rfl, Option.map_some, h]

theorem onWire_json (hiat : IsFinite claims.iat) (hexp : IsFinite claims.exp) :
    Json.onWire claims.json = claims.onWire.json := by
  rw [AccessTokenClaims.json, Json.onWire_object]
  simp only [List.map_append, Json.map_present, List.map_cons, List.map_nil, Prod.map_apply, id_eq, Json.onWire_str,
    onWire_num hiat,
    onWire_num hexp, onWire_entries, onWire_nullable, map_onWire (fun type : TokenPrincipalType => onWire_text type.text),
    map_onWire Json.onWire_str, flag_onWire _ (Json.onWire_bool true), flag_onWire _ (onWire_text terminalAuthenticationMethod),
    map_onWire onWire_terminal, map_onWire onWire_oauth, map_onWire onWire_link]
  rfl

/-! ## Texts of code units -/

/-- A JavaScript string: its units have 16 bits. -/
def IsString (s : Units) : Prop := ∀ u ∈ s, u < 0x10000

def Scope.Typed (scope : Scope) : Prop := IsString scope.type ∧ IsString scope.value

structure PermissionEntry.Typed (entry : PermissionEntry) : Prop where
  action : IsString entry.action
  scope : ∀ scope ∈ entry.scope, scope.Typed
  source : IsString entry.source.text

/-- Every text of the claims is a JavaScript string. -/
structure AccessTokenClaims.Typed (claims : AccessTokenClaims) : Prop where
  iss : IsString claims.iss
  aud : IsString claims.aud
  sub : IsString claims.sub
  perms : ∀ entry ∈ claims.perms, entry.Typed
  label : ∀ label ∈ claims.label, IsString label
  workload : ∀ workload ∈ claims.workload, IsString workload
  email : ∀ email ∈ claims.email, IsString email
  terminal : ∀ terminal ∈ claims.terminal, IsString terminal.id ∧ IsString terminal.label
  link : ∀ link ∈ claims.link, IsString link.mount ∧ ∀ scope ∈ link.chain, scope.Typed

theorem proper_scope {scope : Scope} (h : scope.Typed) : scope.json.Proper := by
  apply Json.proper_object ["type", "value"] (List.Sublist.refl _) (by decide) (by decide)
  intro field hfield
  simp only [List.mem_cons, List.not_mem_nil, or_false] at hfield
  rcases hfield with rfl | rfl
  · exact .str h.1
  · exact .str h.2

theorem proper_entry {entry : PermissionEntry} (h : entry.Typed) : entry.json.Proper := by
  apply Json.proper_object ["action", "scope", "source"] (List.Sublist.refl _) (by decide) (by decide)
  intro field hfield
  simp only [List.mem_cons, List.not_mem_nil, or_false] at hfield
  rcases hfield with rfl | rfl | rfl
  · exact .str h.action
  · cases hscope : entry.scope with
    | none => exact .null
    | some scope => exact proper_scope (h.scope scope hscope)
  · exact .str h.source

theorem proper_entries {perms : List PermissionEntry} (h : ∀ entry ∈ perms, entry.Typed) :
    (Json.arr (perms.map PermissionEntry.json) : Payload).Proper := by
  apply Json.Proper.arr
  intro item hitem
  obtain ⟨entry, hentry, rfl⟩ := List.mem_map.mp hitem
  exact proper_entry (h entry hentry)

theorem proper_nullable {label : Option Units} (h : ∀ text ∈ label, IsString text) :
    (nullable Json.str label : Payload).Proper := by
  cases label with
  | none => exact .null
  | some text => exact .str (h text rfl)

theorem proper_text (text : String) : (Json.text text : Payload).Proper := .str (codeUnits_lt text)

theorem proper_terminal {terminal : TerminalTokenClaims} (hid : IsString terminal.id) (hlabel : IsString terminal.label) :
    terminal.json.Proper := by
  apply Json.proper_object ["id", "label"] (List.Sublist.refl _) (by decide) (by decide)
  intro field hfield
  simp only [List.mem_cons, List.not_mem_nil, or_false] at hfield
  rcases hfield with rfl | rfl
  · exact .str hid
  · exact .str hlabel

theorem proper_link {link : LinkTokenClaims} (hmount : IsString link.mount) (hchain : ∀ scope ∈ link.chain, scope.Typed) :
    link.json.Proper := by
  apply Json.proper_object ["mount", "chain"] (List.Sublist.refl _) (by decide) (by decide)
  intro field hfield
  simp only [List.mem_cons, List.not_mem_nil, or_false] at hfield
  rcases hfield with rfl | rfl
  · exact .str hmount
  · apply Json.Proper.arr
    intro item hitem
    obtain ⟨scope, hscope, rfl⟩ := List.mem_map.mp hitem
    exact proper_scope (hchain scope hscope)

theorem mem_present {name : String} {field : String × Payload} (h : field ∈ Json.present name value) :
    value = some field.2 := by
  cases value with
  | none => cases h
  | some value =>
    rw [List.mem_singleton.mp h]

theorem mem_flag {name : String} {set : Bool} {value : Payload} {field : String × Payload}
    (h : field ∈ Json.present name (flag set value)) :
    field.2 = value := by
  have hflag := mem_present h
  unfold flag at hflag
  split at hflag
  · exact (Option.some.inj hflag).symm
  · cases hflag

/-- The names of the members a token may have. -/
def claimNames : List String :=
  ["iss", "aud", "sub", "iat", "exp", "perms", "label", "ptype", "workload", "email", "session", "amr", "terminal",
    "oauth", "link"]

theorem proper_json (h : claims.Typed) (hoauth : claims.oauth = none) : claims.json.Proper := by
  have hnames : (claimNames : List String) = ["iss", "aud", "sub", "iat", "exp", "perms", "label"] ++ ["ptype"] ++ ["workload"] ++
      ["email"] ++
      ["session"] ++ ["amr"] ++ ["terminal"] ++ ["oauth"] ++ ["link"] := rfl
  refine Json.proper_object claimNames ?_ (by decide) (by decide) ?_
  · rw [hnames]
    simp only [List.map_append]
    repeat' apply List.Sublist.append
    · exact .refl _
    all_goals exact Json.present_sublist _ _
  · intro field hfield
    simp only [List.mem_append] at hfield
    rcases hfield with (((((((hfield | hfield) | hfield) | hfield) | hfield) | hfield) | hfield) | hfield) | hfield
    · simp only [List.mem_cons, List.not_mem_nil, or_false] at hfield
      rcases hfield with rfl | rfl | rfl | rfl | rfl | rfl | rfl
      · exact .str h.iss
      · exact .str h.aud
      · exact .str h.sub
      · exact .num _
      · exact .num _
      · exact proper_entries h.perms
      · exact proper_nullable h.label
    · obtain ⟨type, _, heq⟩ := Option.map_eq_some_iff.mp (mem_present hfield)
      exact heq ▸ proper_text type.text
    · obtain ⟨workload, hworkload, heq⟩ := Option.map_eq_some_iff.mp (mem_present hfield)
      exact heq ▸ .str (h.workload workload hworkload)
    · obtain ⟨email, hemail, heq⟩ := Option.map_eq_some_iff.mp (mem_present hfield)
      exact heq ▸ .str (h.email email hemail)
    · exact mem_flag hfield ▸ .bool true
    · exact mem_flag hfield ▸ proper_text _
    · obtain ⟨terminal, hterminal, heq⟩ := Option.map_eq_some_iff.mp (mem_present hfield)
      obtain ⟨hid, hlabel⟩ := h.terminal terminal hterminal
      exact heq ▸ proper_terminal hid hlabel
    · rw [hoauth] at hfield
      cases hfield
    · obtain ⟨link, hlink, heq⟩ := Option.map_eq_some_iff.mp (mem_present hfield)
      obtain ⟨hmount, hchain⟩ := h.link link hlink
      exact heq ▸ proper_link hmount hchain

/-! ## Built tokens -/

structure AccessTokenParams.Typed (params : AccessTokenParams) : Prop where
  iss : IsString params.iss
  app : IsString params.app
  subject : IsString params.subject
  permissions : ∀ entry ∈ params.permissions, entry.Typed
  label : ∀ label ∈ params.label, IsString label
  workload : ∀ workload ∈ params.workload, IsString workload
  email : ∀ email ∈ params.email, IsString email
  terminal : ∀ terminal ∈ params.terminal, IsString terminal.id ∧ IsString terminal.label
  link : ∀ link ∈ params.link, IsString link.mount ∧ ∀ scope ∈ link.chain, scope.Typed

theorem throwIf_eq_ok {refused : Bool} {message : String} {u : Unit} : throwIf refused message = .ok u ↔ refused = false := by
  cases refused with
  | false => exact ⟨fun _ => rfl, fun _ => rfl⟩
  | true =>
    constructor
    · intro h
      cases h
    · intro h
      cases h

theorem parseWorkload_of_named {params : AccessTokenParams} (h : misnamed params = false) :
    parseWorkload (params.workload.map .str) params.type = some params.workload := by
  unfold misnamed at h
  unfold parseWorkload
  cases hkind : params.type.bind TokenPrincipalType.workloadKind with
  | none =>
    rw [hkind] at h
    dsimp only at h ⊢
    rw [Option.isSome_eq_false_iff, Option.isNone_iff_eq_none] at h
    rw [h]
    rfl
  | some kind =>
    rw [hkind] at h
    dsimp only at h ⊢
    cases hname : params.workload with
    | none => simp [hname] at h
    | some name =>
      rw [hname] at h
      simp only [Option.any_some, Bool.not_eq_false'] at h
      simp [h]

theorem isTerminalClaims_iff {id label : Units} : isTerminalClaims (some id) (some label) = true ↔ id ≠ [] ∧ label ≠ [] := by
  simp [isTerminalClaims]

/-- What `buildAccessClaims` answers, and what it has checked. -/
theorem built_of_build {params : AccessTokenParams} (h : buildAccessClaims P params = .ok claims)
    (hiat : IsFinite params.issuedAt) (hexp : IsFinite params.expiresAt)
    (hlink : ∀ link ∈ params.link, link.mount ≠ [] ∧ link.chain ≠ []) : Built P claims := by
  unfold buildAccessClaims at h
  obtain ⟨_, hworkload, h⟩ := except_bind_eq_ok.mp h
  obtain ⟨_, hemail, h⟩ := except_bind_eq_ok.mp h
  obtain ⟨_, hsession, h⟩ := except_bind_eq_ok.mp h
  obtain ⟨_, hterminal, h⟩ := except_bind_eq_ok.mp h
  obtain ⟨_, hbound, h⟩ := except_bind_eq_ok.mp h
  cases h
  rw [throwIf_eq_ok] at hworkload hemail hsession hterminal hbound
  refine ⟨hiat, hexp, parseWorkload_of_named hworkload, ?_, ?_, ?_, rfl, rfl, ?_⟩
  · intro email hsome
    rw [show params.email = some email from hsome] at hemail
    simpa using hemail
  · intro hset
    rw [show params.session = true from hset] at hsession
    simpa using hsession
  · intro terminal hsome
    rw [show params.terminal = some terminal from hsome] at hterminal
    simp only [Option.any_some, Bool.or_eq_false_iff, decide_eq_false_iff_not, not_not, Bool.not_eq_false'] at hterminal
    exact ⟨hterminal.1.1, hterminal.1.2, (isTerminalClaims_iff).mp hterminal.2⟩
  · intro link hsome
    rw [show params.link = some link from hsome] at hbound
    have hunbound : params.type = none := by simpa using hbound
    exact ⟨hunbound, hlink link hsome⟩

/-- A built token has of each field what the parameters give. -/
theorem claims_of_build {params : AccessTokenParams} (h : buildAccessClaims P params = .ok claims) :
    claims = ⟨params.iss, params.app, params.subject, params.issuedAt, params.expiresAt, params.permissions, params.label,
      params.type, params.workload, params.email, params.session, params.terminal.isSome, params.terminal, none, params.link⟩ := by
  unfold buildAccessClaims at h
  -- Each of the five checks only refuses.
  iterate 5 obtain ⟨_, _, h⟩ := except_bind_eq_ok.mp h
  cases h
  rfl

theorem typed_of_build {params : AccessTokenParams} (h : buildAccessClaims P params = .ok claims) (htyped : params.Typed) :
    claims.Typed := by
  rw [claims_of_build h]
  exact ⟨htyped.iss, htyped.app, htyped.subject, htyped.permissions, htyped.label, htyped.workload, htyped.email, htyped.terminal,
    htyped.link⟩

theorem parseOnWire_eq (h : payload.Proper) : parseOnWire P payload = parseAccessClaims P (Json.onWire payload) := by
  rw [parseOnWire, Json.parse_stringify h, Option.bind_some]

theorem Built.onWire (h : Built P claims) : Built P claims.onWire :=
  { h with iat := isFinite_wireNumber h.iat, exp := isFinite_wireNumber h.exp }

/-- A token that was built is read as it was built. -/
theorem parseOnWire_built (h : Built P claims) (htyped : claims.Typed) : parseOnWire P claims.json = some claims.onWire := by
  rw [parseOnWire_eq (proper_json htyped h.oauth), onWire_json h.iat h.exp]
  exact parse_of_parses (parses_json h.onWire)

/-! ## Resource tokens -/

theorem scopesFrom_eq_some {scopes items found : List Units} (h : scopesFrom scopes items = some found) :
    found = scopes ++ items ∧ ∀ item ∈ items, item ≠ [] ∧ item.all isScopeUnit = true := by
  induction items generalizing scopes with
  | nil =>
    cases h
    exact ⟨by simp, by simp⟩
  | cons item rest ih =>
    unfold scopesFrom at h
    split at h
    · cases h
    · rename_i hvalid
      simp only [Bool.or_eq_true, not_or, Bool.not_eq_true, decide_eq_true_eq, Bool.not_eq_eq_eq_not] at hvalid
      obtain ⟨rfl, hrest⟩ := ih h
      refine ⟨by simp, ?_⟩
      intro other hother
      rcases List.mem_cons.mp hother with rfl | hother
      · have hall : other.all isScopeUnit = true := by simpa using hvalid.1.2
        exact ⟨List.length_pos_iff.mp (Nat.pos_of_ne_zero hvalid.1.1.1), hall⟩
      · exact hrest other hother

theorem parseOAuthScopes_eq_some {items scopes : List Units} (h : parseOAuthScopes items = some scopes) :
    scopes = items ∧ ∀ item ∈ items, item ≠ [] ∧ item.all isScopeUnit = true := by
  unfold parseOAuthScopes at h
  split at h
  · cases h
  · simpa using scopesFrom_eq_some h

theorem no_space_of_scope {scope : Units} (h : scope.all isScopeUnit = true) : 0x20 ∉ scope := by
  intro hmem
  exact absurd (List.all_eq_true.mp h _ hmem) (by decide)

theorem prop_payload_times (params : ResourceAccessTokenParams) (iat exp : Number) (hiat : key ≠ "iat") (hexp : key ≠ "exp") :
    prop (some { params with issuedAt := iat, expiresAt := exp }.payload) key = prop (some params.payload) key := by
  simp only [ResourceAccessTokenParams.payload, prop_object, List.lookup_cons, beq_eq_false_iff_ne.mpr hiat,
    beq_eq_false_iff_ne.mpr hexp]

/-- The members of an OAuth token. -/
theorem prop_payload (params : ResourceAccessTokenParams) :
    prop (some params.payload) "iat" = some (.num params.issuedAt) ∧
    prop (some params.payload) "exp" = some (.num params.expiresAt) ∧
      prop (some params.payload) "app" = some (.str params.app) ∧
      prop (some params.payload) "client_id" = some (.str params.clientId) ∧
      prop (some params.payload) "scope" = some (.str ([0x20].intercalate params.scopes)) ∧
      prop (some params.payload) "grant" = some (.str params.grantId) ∧
      prop (some params.payload) "jti" = some (.str params.tokenId) := by
  simp [ResourceAccessTokenParams.payload, prop_object, List.lookup_cons]

theorem isFinite_of_numberField {found : Number} (hprop : prop value key = some (.num number))
    (h : numberField value key = some found) : found = number ∧ IsFinite number := by
  rw [numberField, hprop] at h
  cases number with
  | nan => cases h
  | infinite negative => cases h
  | negZero =>
    cases h
    exact ⟨rfl, .inl rfl⟩
  | finite x =>
    cases h
    exact ⟨rfl, .inr ⟨x, rfl⟩⟩

/-- The scopes of a parsed resource token are the parts its joined scopes split into. -/
theorem oauth_payload {oauth : OAuthTokenClaims} (h : parseOAuthClaims P (some params.payload) = some (some oauth)) :
    parseOAuthScopes (([0x20].intercalate params.scopes).splitOn 0x20) = some oauth.scopes ∧
      oauth = ⟨params.app, params.clientId, oauth.scopes, params.grantId, params.tokenId⟩ := by
  obtain ⟨_, _, happ, hclient, hscope, hgrant, hjti⟩ := prop_payload params
  rw [parseOAuthClaims, happ, hclient, hscope, hgrant, hjti] at h
  dsimp only [Option.isNone_some, Bool.false_and] at h
  rw [if_neg (by simp)] at h
  split at h
  · cases h
  · rename_i scopes hscopes
    split at h
    · cases h
    · cases h
      exact ⟨hscopes, rfl⟩

theorem onWire_payload (hiat : IsFinite params.issuedAt) (hexp : IsFinite params.expiresAt) :
    Json.onWire params.payload =
      { params with issuedAt := wireNumber params.issuedAt, expiresAt := wireNumber params.expiresAt }.payload := by
  rw [ResourceAccessTokenParams.payload, Json.onWire_object]
  simp only [List.map_cons, List.map_nil, Prod.map_apply, id_eq, Json.onWire_str, onWire_num hiat, onWire_num hexp,
    onWire_entries, onWire_nullable, onWire_text]
  rfl

/-- What a payload with these times says, it says with the times as the wire has them. -/
theorem parses_times (h : Parses P params.payload claims) {iat exp : Number} (hiat : IsFinite iat) (hexp : IsFinite exp) :
    Parses P { params with issuedAt := iat, expiresAt := exp }.payload { claims with iat := iat, exp := exp } := by
  have hprop : ∀ key : String, key ≠ "iat" → key ≠ "exp" →
      prop (some { params with issuedAt := iat, expiresAt := exp }.payload) key = prop (some params.payload) key :=
    fun key hiat hexp => prop_payload_times params iat exp hiat hexp
  have hstring : ∀ {key : String}, key ≠ "iat" → key ≠ "exp" →
      stringField (some { params with issuedAt := iat, expiresAt := exp }.payload) key =
        stringField (some params.payload) key := by
    intro key hkey hkey'
    rw [stringField, stringField, hprop key hkey hkey']
  have hoauth : parseOAuthClaims P (some { params with issuedAt := iat, expiresAt := exp }.payload) =
      parseOAuthClaims P (some params.payload) := by
    rw [parseOAuthClaims, parseOAuthClaims, hprop "app" (by decide) (by decide), hprop "client_id" (by decide) (by decide),
      hprop "scope" (by decide) (by decide), hprop "grant" (by decide) (by decide), hprop "jti" (by decide) (by decide)]
  obtain ⟨hiatProp, hexpProp, _⟩ := prop_payload { params with issuedAt := iat, expiresAt := exp }
  exact
    { iss := (hstring (by decide) (by decide)).trans h.iss, aud := (hstring (by decide) (by decide)).trans h.aud
      sub := (hstring (by decide) (by decide)).trans h.sub
      iat := numberField_of_prop hiatProp hiat, exp := numberField_of_prop hexpProp hexp
      perms := hprop "perms" (by decide) (by decide) ▸ h.perms
      label := hprop "label" (by decide) (by decide) ▸ h.label
      ptype := hprop "ptype" (by decide) (by decide) ▸ h.ptype
      oauth := hoauth.trans h.oauth, oauthOnly := h.oauthOnly
      link := hprop "link" (by decide) (by decide) ▸ h.link, linkOnly := h.linkOnly
      workload := hprop "workload" (by decide) (by decide) ▸ h.workload
      email := hprop "email" (by decide) (by decide) ▸ h.email
      session := hprop "session" (by decide) (by decide) ▸ h.session
      terminal := hprop "amr" (by decide) (by decide) ▸ hprop "terminal" (by decide) (by decide) ▸ h.terminal
      terminalOnly := h.terminalOnly, amr := h.amr }

structure ResourceAccessTokenParams.Typed (params : ResourceAccessTokenParams) : Prop where
  iss : IsString params.iss
  app : IsString params.app
  resource : IsString params.resource
  subject : IsString params.subject
  label : ∀ label ∈ params.label, IsString label
  permissions : ∀ entry ∈ params.permissions, entry.Typed
  clientId : IsString params.clientId
  scopes : ∀ scope ∈ params.scopes, IsString scope
  grantId : IsString params.grantId
  tokenId : IsString params.tokenId

theorem isString_join {scopes : List Units} (h : ∀ scope ∈ scopes, IsString scope) : IsString ([0x20].intercalate scopes) := by
  induction scopes with
  | nil => simp [IsString, List.intercalate]
  | cons scope rest ih =>
    have hrest := ih fun other hother => h other (List.mem_cons_of_mem _ hother)
    have hscope := h scope List.mem_cons_self
    cases rest with
    | nil => simpa [List.intercalate] using hscope
    | cons next rest =>
      have hstep : [0x20].intercalate (scope :: next :: rest) = scope ++ 0x20 :: [0x20].intercalate (next :: rest) := by
        simp [List.intercalate]
      intro u hu
      rw [hstep, List.mem_append, List.mem_cons] at hu
      rcases hu with hu | rfl | hu
      · exact hscope u hu
      · decide
      · exact hrest u hu

theorem proper_payload (h : params.Typed) : params.payload.Proper := by
  apply Json.proper_object ["iss", "aud", "sub", "iat", "exp", "perms", "ptype", "label", "app", "client_id", "scope",
    "grant", "jti"]
    (List.Sublist.refl _) (by decide) (by decide)
  intro field hfield
  simp only [List.mem_cons, List.not_mem_nil, or_false] at hfield
  rcases hfield with rfl | rfl | rfl | rfl | rfl | rfl | rfl | rfl | rfl | rfl | rfl | rfl | rfl
  · exact .str h.iss
  · exact .str h.resource
  · exact .str h.subject
  · exact .num _
  · exact .num _
  · exact proper_entries h.permissions
  · exact proper_text _
  · exact proper_nullable h.label
  · exact .str h.app
  · exact .str h.clientId
  · exact .str (isString_join h.scopes)
  · exact .str h.grantId
  · exact .str h.tokenId

/-- An accepted resource payload is read on the other side of the wire, with the scopes its
    joined scopes split into. -/
theorem parseOnWire_resource (h : buildResourceAccessClaims P params = .ok payload) (htyped : params.Typed) :
    ∃ claims scopes, parseOnWire P payload = some claims ∧
      claims.oauth = some ⟨params.app, params.clientId, scopes, params.grantId, params.tokenId⟩ ∧
      parseOAuthScopes (([0x20].intercalate params.scopes).splitOn 0x20) = some scopes := by
  unfold buildResourceAccessClaims at h
  split at h
  · cases h
  rename_i hoauth
  cases h
  rw [Option.isNone_iff_eq_none] at hoauth
  obtain ⟨oauth, hoauth⟩ := Option.ne_none_iff_exists'.mp hoauth
  obtain ⟨claims, hclaims, hsome⟩ := Option.bind_eq_some_iff.mp hoauth
  have hparses := parses_of_parse hclaims
  obtain ⟨hiatProp, hexpProp, _⟩ := prop_payload params
  have hiat := (isFinite_of_numberField hiatProp hparses.iat).2
  have hexp := (isFinite_of_numberField hexpProp hparses.exp).2
  have hfound := hparses.oauth
  rw [hsome] at hfound
  obtain ⟨hscopes, hshape⟩ := oauth_payload hfound
  refine ⟨{ claims with iat := wireNumber params.issuedAt, exp := wireNumber params.expiresAt }, oauth.scopes, ?_, ?_, hscopes⟩
  · rw [parseOnWire_eq (proper_payload htyped), onWire_payload hiat hexp]
    exact parse_of_parses (parses_times hparses (isFinite_wireNumber hiat) (isFinite_wireNumber hexp))
  · rw [← hshape]
    exact hsome

theorem resource_scopes (h : buildResourceAccessClaims P params = .ok payload) (htyped : params.Typed) :
    (∃ claims, parseOnWire P payload = some claims ∧
        claims.oauth = some ⟨params.app, params.clientId, params.scopes, params.grantId, params.tokenId⟩) ↔
      ∀ scope ∈ params.scopes, 0x20 ∉ scope := by
  obtain ⟨claims, scopes, hparse, hoauth, hscopes⟩ := parseOnWire_resource h htyped
  obtain ⟨hsplit, hvalid⟩ := parseOAuthScopes_eq_some hscopes
  constructor
  · rintro ⟨found, hfound, hsame⟩ scope hscope
    rw [hparse] at hfound
    cases hfound
    rw [hoauth] at hsame
    have heq : scopes = params.scopes := by
      injection hsame with hsame
      injection hsame
    rw [← heq, hsplit] at hscope
    exact no_space_of_scope (hvalid scope hscope).2
  · intro hnone
    have hne : params.scopes ≠ [] := by
      intro hempty
      rw [hempty] at hvalid
      exact (hvalid [] (by simp [List.intercalate])).1 rfl
    refine ⟨claims, hparse, ?_⟩
    rw [hoauth, hsplit, List.splitOn_intercalate _ hnone hne]

/-! ## The claims of a token -/

/-- A built token is read as it was built, and a resource token exactly when no scope holds a
    space; a token that is read is of one kind, and passes as an application's or as a resource's
    but not as both. -/
theorem claims_survive (P : Platform) :
    (∀ params claims, params.Typed → buildAccessClaims P params = .ok claims → IsFinite params.issuedAt →
      IsFinite params.expiresAt →
        (∀ link ∈ params.link, link.mount ≠ [] ∧ link.chain ≠ []) → parseOnWire P claims.json = some claims.onWire) ∧
      (∀ params payload, params.Typed → buildResourceAccessClaims P params = .ok payload →
        ((∃ claims, parseOnWire P payload = some claims ∧
            claims.oauth = some ⟨params.app, params.clientId, params.scopes, params.grantId, params.tokenId⟩) ↔
          ∀ scope ∈ params.scopes, 0x20 ∉ scope)) ∧
      ∀ payload claims, parseAccessClaims P payload = some claims → Exclusive claims ∧
        ∀ app app' resource, ¬(matchesTokenAudience claims (.app app) = true ∧
          matchesTokenAudience claims (.resource app' resource) = true) := by
  refine ⟨?_, ?_, ?_⟩
  · intro params claims htyped hbuild hiat hexp hlink
    exact parseOnWire_built (built_of_build hbuild hiat hexp hlink) (typed_of_build hbuild htyped)
  · intro params payload htyped hbuild
    exact resource_scopes hbuild htyped
  · intro payload claims hparse
    exact ⟨exclusive_of_parses (parses_of_parse hparse), one_profile claims⟩

/-! ## A link token and a scope with a space -/

/-- The platform as it answers for the two URLs of `spacedScope`. -/
def twoUrls : Platform where
  url text :=
    if text = codeUnits "https://control.test/mcp" then some ⟨codeUnits "https:", codeUnits "control.test"⟩
    else if text = codeUnits "https://client.test/metadata.json" then some ⟨codeUnits "https:", codeUnits "client.test"⟩
    else none
  toLocaleLowerCase text := text.map lowerAscii

/-- A share link's reader of one note. -/
def noteReader : AccessTokenParams where
  iss := codeUnits "https://iam.test"
  app := codeUnits "notes"
  subject := codeUnits "link-1"
  type := none
  workload := none
  label := some (codeUnits "a note")
  email := none
  session := false
  terminal := none
  permissions := [⟨codeUnits "note.read", some ⟨codeUnits "note", codeUnits "7"⟩, .group (codeUnits "readers")⟩]
  issuedAt := .finite Double.zero
  expiresAt := .finite Double.zero
  link := some ⟨codeUnits "shared", [⟨codeUnits "note", codeUnits "7"⟩]⟩

theorem a_link_token_reads_back : ∃ claims, buildAccessClaims twoUrls noteReader = .ok claims ∧ claims.link = noteReader.link ∧
    parseOnWire twoUrls claims.json = some claims.onWire := by
  have htyped : noteReader.Typed := by
    refine ⟨codeUnits_lt _, codeUnits_lt _, codeUnits_lt _, ?_, ?_, ?_, ?_, ?_, ?_⟩
    · intro entry hentry
      obtain rfl := List.mem_singleton.mp hentry
      exact ⟨codeUnits_lt _, by rintro _ ⟨⟩; exact ⟨codeUnits_lt _, codeUnits_lt _⟩, by unfold IsString; decide⟩
    · rintro _ ⟨⟩
      exact codeUnits_lt _
    · intro workload h
      cases h
    · intro email h
      cases h
    · intro terminal h
      cases h
    · rintro _ ⟨⟩
      exact ⟨codeUnits_lt _, fun scope h => List.mem_singleton.mp h ▸ ⟨codeUnits_lt _, codeUnits_lt _⟩⟩
  have hlink : ∀ link ∈ noteReader.link, link.mount ≠ [] ∧ link.chain ≠ [] := by
    rintro _ ⟨⟩
    exact ⟨by decide, by decide⟩
  exact ⟨_, rfl, rfl, (claims_survive twoUrls).1 noteReader _ htyped rfl (.inr ⟨_, rfl⟩) (.inr ⟨_, rfl⟩) hlink⟩

/-- One consented scope, `a b`. -/
def spacedScope : ResourceAccessTokenParams where
  iss := codeUnits "https://iam.test"
  app := codeUnits "vozka"
  resource := codeUnits "https://control.test/mcp"
  subject := codeUnits "user-1"
  label := none
  permissions := []
  issuedAt := .finite Double.zero
  expiresAt := .finite Double.zero
  clientId := codeUnits "https://client.test/metadata.json"
  scopes := [codeUnits "a b"]
  grantId := codeUnits "grant-1"
  tokenId := codeUnits "token-1"

theorem spacedScope_accepted : buildResourceAccessClaims twoUrls spacedScope = .ok spacedScope.payload := by
  have hvalid : ((parseAccessClaims twoUrls spacedScope.payload).bind AccessTokenClaims.oauth).isNone = false := by
    decide
  rw [buildResourceAccessClaims, hvalid]
  rfl

/-- The scope is accepted, and read as the scopes `a` and `b`. -/
theorem spaced_scope_splits :
    buildResourceAccessClaims twoUrls spacedScope = .ok spacedScope.payload ∧
      ¬∃ claims, parseOnWire twoUrls spacedScope.payload = some claims ∧
        claims.oauth = some ⟨spacedScope.app, spacedScope.clientId, spacedScope.scopes, spacedScope.grantId,
          spacedScope.tokenId⟩ := by
  have htyped : spacedScope.Typed := by
    refine ⟨?_, ?_, ?_, ?_, ?_, ?_, ?_, ?_, ?_, ?_⟩
    · exact codeUnits_lt _
    · exact codeUnits_lt _
    · exact codeUnits_lt _
    · exact codeUnits_lt _
    · intro label hlabel
      cases hlabel
    · intro entry hentry
      cases hentry
    · exact codeUnits_lt _
    · intro scope hscope
      rw [List.mem_singleton.mp hscope]
      exact codeUnits_lt _
    · exact codeUnits_lt _
    · exact codeUnits_lt _
  refine ⟨spacedScope_accepted, ?_⟩
  rw [resource_scopes spacedScope_accepted htyped]
  decide

end Fabrika.AuthCore.Token
