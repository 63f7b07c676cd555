/-
  Fabrika.Control.AccessProofs — who is admitted after a classification without a widening line
  (see `Fabrika.Control.EndpointLines`).

  A row that is kept may only narrow (`endpointChanges_keep`), and a row is new only by widening.
  So a request the candidate admits either reaches the row it reached before, or one that a
  removed row shadowed. Where a probe stands for its path the two were compared
  (`fallThrough_compares`), and a probe does where the path keeps its place among the reserved
  prefixes. `nobody_new` says that nobody new is admitted exactly where every path that falls to
  a row which admits more does so; `a_prefix_hides_a_public_page` is one that does not.
-/

import Fabrika.Control.DiffProofs
import Fabrika.Control.ProbePrefixes

namespace Fabrika.Control

open Fabrika.Lib Fabrika.AuthCore Fabrika.AuthCore.Paths
open Fabrika.AuthCore.Endpoints (splitPath planEndpoint compileEndpointTable CompiledEndpointTable Accepted Competes MostSpecific
  patternOf matchSegments compileRow isReservedPrefix isUnder planEndpoint_eq_endpoint compile_ok_iff)

/-! ## Who a row admits -/

/-- The class of a request's `Origin`. -/
inductive OriginClass
  | none
  | listed
  | other
  deriving DecidableEq

structure Body where
  contentType : String
  length : Nat
  deriving DecidableEq

structure AccessRequest where
  method : String
  path : String
  /-- `none` presents no credential. -/
  caller : Option Caller
  perms : List PermissionEntry
  body : Option Body
  origin : OriginClass
  deriving DecidableEq

/-- An anonymous row takes every caller, any other its own callers with the permissions it
    requires. -/
def AdmitsCaller (access : RowAccess) (r : AccessRequest) : Prop :=
  match access with
  | .anonymous _ => True
  | .credentialed _ callers requirement => (∃ caller ∈ callers, r.caller = some caller) ∧ satisfies requirement r.perms = true

/-- Without an admission a row admits no body. -/
def FitsBody (admission : Option BodyAdmission) (body : Option Body) : Prop :=
  ∀ b, body = some b → ∃ a, admission = some a ∧ b.contentType ∈ a.contentTypes ∧ ∀ limit, a.maxBytes = some limit →
    b.length ≤ limit

def FitsOrigin (form : Option CrossOriginForm) : OriginClass → Prop
  | .none => True
  | .listed => form = some .environment ∨ form = some .any
  | .other => form = some .any

structure Admits (row : EndpointRow) (r : AccessRequest) : Prop where
  caller : AdmitsCaller row.access r
  body : FitsBody row.admission r.body
  origin : FitsOrigin row.crossOrigin r.origin

/-- A form, a webhook or a link's page turns callers away itself, by what no row declares. -/
def TurnsAway (row : EndpointRow) : Prop := row.requirement = none ∧ opensToAnyone row = false

/-- What a row that takes over a path may not do: admit a request the row before it refused, or
    stand in for a row that turns callers away itself. -/
structure NoMore (now was : EndpointRow) : Prop where
  admits : ∀ r, Admits now r → Admits was r
  itself : TurnsAway now ∨ TurnsAway was → was.id = now.id

/-- The row admits a request the row before it did not: one that turns callers away itself stands
    in for no other. -/
def AdmitsMore (now was : EndpointRow) : Prop :=
  ∃ r, Admits now r ∧ ¬ (Admits was r ∧ (TurnsAway now ∨ TurnsAway was → was.id = now.id))

variable {now was other : EndpointRow} {key path : String} {rows : List EndpointRow}

theorem NoMore.not_admitsMore (h : NoMore now was) : ¬ AdmitsMore now was := by
  rintro ⟨r, hr, hnot⟩
  exact hnot ⟨h.admits r hr, h.itself⟩

/-! ## A kept row -/

theorem callerText_injective : Function.Injective Caller.text := by
  intro a b h
  have hlist := congrArg String.toList h
  cases a <;> cases b <;> simp [Caller.text, String.toList_inj] at hlist ⊢
  exact hlist

theorem satisfies_canonical {requirement : EndpointRequirement} {perms : List PermissionEntry} :
    satisfies (canonicalRequirement requirement) perms = satisfies requirement perms := by
  cases requirement with
  | capabilities capabilities =>
    simp only [canonicalRequirement, satisfies]
    exact (List.perm_insertionSort _ capabilities).all_eq
  | _ => rfl

theorem satisfies_of_canonical_eq {a b : EndpointRequirement} {perms : List PermissionEntry}
    (h : canonicalRequirement a = canonicalRequirement b) : satisfies a perms = satisfies b perms := by
  rw [← satisfies_canonical, h, satisfies_canonical]

theorem fitsBody_of_changes {was now : Option BodyAdmission} (h : LinesKeep (admissionChanges was now)) {body : Option Body}
    (hfits : FitsBody now body) : FitsBody was body := by
  intro b hb
  obtain ⟨a, ha, htype, hlimit⟩ := hfits b hb
  subst ha
  cases was with
  | none => simp [admissionChanges] at h
  | some w =>
    simp only [admissionChanges, linesKeep_append, linesKeep_ruled, widens_setChanges, widens_limitChange] at h
    refine ⟨w, rfl, h.1 htype, ?_⟩
    intro limit hl
    obtain ⟨least, hleast, hle⟩ := h.2 limit hl
    exact (hlimit least hleast).trans hle

theorem fitsOrigin_of_changes {was now : Option CrossOriginForm} (h : AccessEffect.widens ∉ crossOriginChanges was now)
    {origin : OriginClass} (hfits : FitsOrigin now origin) : FitsOrigin was origin := by
  unfold crossOriginChanges at h
  by_cases heq : was = now
  · exact heq ▸ hfits
  · rw [if_neg heq] at h
    cases now with
    | none => cases origin <;> simp [FitsOrigin] at hfits ⊢
    | some form =>
      by_cases hany : was = some .any
      · subst hany
        cases origin <;> simp [FitsOrigin]
      · simp [hany] at h

/-- A row that changes by lines that do not widen keeps its route and admits no more. -/
theorem endpointChanges_keep (h : LinesKeep (endpointChanges was now)) :
    was.method = now.method ∧ was.path = now.path ∧ ∀ r, Admits now r → Admits was r := by
  simp only [endpointChanges, linesKeep_append, linesKeep_ruled, widens_valueChange, widens_setChanges, Prod.mk.injEq] at h
  obtain ⟨⟨⟨⟨⟨⟨⟨⟨_, hkind⟩, hmethod, hpath⟩, hcallers⟩, hrequirement⟩, hbody⟩, horigin⟩, _⟩, _⟩ := h
  refine ⟨hmethod, hpath, ?_⟩
  intro r hadmits
  refine ⟨?_, fitsBody_of_changes hbody hadmits.body, fitsOrigin_of_changes horigin hadmits.origin⟩
  have hcaller := hadmits.caller
  simp only [EndpointRow.kind, EndpointRow.callers, EndpointRow.requirement] at hkind hcallers hrequirement
  cases hw : was.access with
  | anonymous kind => trivial
  | credentialed kind callers requirement =>
    cases hn : now.access with
    | anonymous kind' => rw [hw, hn] at hkind; cases hkind
    | credentialed kind' callers' requirement' =>
      rw [hw, hn] at hcallers hrequirement
      rw [hn] at hcaller
      obtain ⟨⟨caller, hmem, hr⟩, hsat⟩ := hcaller
      obtain ⟨caller', hmem', htext⟩ := List.mem_map.mp (hcallers (List.mem_map.mpr ⟨caller, hmem, rfl⟩))
      refine ⟨⟨caller', hmem', by rw [hr, callerText_injective htext]⟩, ?_⟩
      rw [satisfies_of_canonical_eq (Option.some.inj hrequirement)]
      exact hsat

/-! ## A row that takes over -/

theorem crossOriginRank_le {a b : Option CrossOriginForm} (h : crossOriginRank a ≤ crossOriginRank b) {origin : OriginClass}
    (hfits : FitsOrigin a origin) : FitsOrigin b origin := by
  cases origin with
  | none => trivial
  | listed =>
    rcases hfits with rfl | rfl <;> rcases b with _ | _ | _ <;> simp [crossOriginRank, FitsOrigin] at h ⊢
  | other =>
    cases hfits
    rcases b with _ | _ | _ <;> simp [crossOriginRank, FitsOrigin] at h ⊢

theorem noMore_of_admitsNoMoreThan {candidate baseline : ContractArtifact}
    (h : admitsNoMoreThan candidate now baseline was = true) : NoMore now was := by
  simp only [admitsNoMoreThan, admitsNoMoreFields, Bool.and_eq_true] at h
  obtain ⟨⟨⟨⟨⟨⟨⟨⟨⟨hkind, hrequirement⟩, hcallers⟩, hbody⟩, horigin⟩, _⟩, _⟩, _⟩, _⟩, _⟩ := h
  have hadmission : ∀ {body : Option Body}, FitsBody now.admission body → FitsBody was.admission body := by
    intro body hfits
    simp only [admitsBody, Bool.or_eq_true, Option.isNone_iff_eq_none, beq_iff_eq] at hbody
    rcases hbody with hnone | heq
    · intro b hb
      obtain ⟨a, ha, _⟩ := hfits b hb
      rw [hnone] at ha
      cases ha
    · exact heq ▸ hfits
  have hcross : ∀ {origin : OriginClass}, FitsOrigin now.crossOrigin origin → FitsOrigin was.crossOrigin origin :=
    fun hfits => crossOriginRank_le (by simpa [admitsOrigin] using horigin) hfits
  cases hw : was.access with
  | anonymous kind =>
    have hreq : was.requirement = none := by simp [EndpointRow.requirement, hw]
    simp only [admitsKind, hreq, Bool.and_eq_true, Bool.or_eq_true] at hkind
    refine ⟨fun r hr => ⟨by rw [hw]; trivial, hadmission hr.body, hcross hr.origin⟩, ?_⟩
    rintro (⟨hnone, hshut⟩ | ⟨_, hshut⟩)
    · rcases hkind.2 with hsome | hopens
      · rw [hnone] at hsome
        cases hsome
      · rw [hshut] at hopens
        cases hopens
    · rw [hkind.1] at hshut
      cases hshut
  | credentialed kind callers requirement =>
    have hreq : was.requirement = some requirement := by simp [EndpointRow.requirement, hw]
    have hlist : was.callers = callers := by simp [EndpointRow.callers, hw]
    simp only [admitsRequirement, hreq] at hrequirement
    simp only [admitsCallers, hreq, hlist, List.all_eq_true, Bool.and_eq_true, List.contains_eq_mem,
      decide_eq_true_eq] at hcallers
    cases hn : now.access with
    | anonymous kind' =>
      have hnone : now.requirement = none := by simp [EndpointRow.requirement, hn]
      simp [hnone] at hrequirement
    | credentialed kind' callers' requirement' =>
      have hsome : now.requirement = some requirement' := by simp [EndpointRow.requirement, hn]
      have hnlist : now.callers = callers' := by simp [EndpointRow.callers, hn]
      simp only [hsome, Bool.and_eq_true, beq_iff_eq] at hrequirement
      refine ⟨?_, ?_⟩
      · intro r hr
        refine ⟨?_, hadmission hr.body, hcross hr.origin⟩
        have hcaller := hr.caller
        rw [hn] at hcaller
        rw [hw]
        obtain ⟨⟨caller, hmem, hrcaller⟩, hsat⟩ := hcaller
        refine ⟨⟨caller, (hcallers caller (hnlist ▸ hmem)).2, hrcaller⟩, ?_⟩
        rw [← satisfies_of_canonical_eq hrequirement.2]
        exact hsat
      · rintro (⟨hnone, _⟩ | ⟨hnone, _⟩)
        · rw [hsome] at hnone
          cases hnone
        · rw [hreq] at hnone
          cases hnone

/-! ## Rows by id -/

theorem byId_concat (rows : List EndpointRow) (row : EndpointRow) : byId (rows ++ [row]) = (byId rows).insert row.id row := by
  simp [byId, List.foldl_append]

theorem mem_of_byId {row : EndpointRow} (h : (byId rows).lookup key = some row) : row ∈ rows ∧ row.id = key := by
  induction rows using List.reverseRecOn with
  | nil => cases h
  | append_singleton rows last ih =>
    rw [byId_concat] at h
    by_cases hkey : key = last.id
    · subst hkey
      rw [AList.lookup_insert] at h
      cases h
      exact ⟨by simp, rfl⟩
    · rw [AList.lookup_insert_ne hkey] at h
      exact ⟨List.mem_append_left _ (ih h).1, (ih h).2⟩

theorem byId_isSome {row : EndpointRow} (h : row ∈ rows) : ∃ other, (byId rows).lookup row.id = some other := by
  induction rows using List.reverseRecOn with
  | nil => cases h
  | append_singleton rows last ih =>
    rw [byId_concat]
    by_cases hkey : row.id = last.id
    · exact ⟨last, by rw [hkey, AList.lookup_insert]⟩
    · rw [AList.lookup_insert_ne hkey]
      rcases List.mem_append.mp h with h | h
      · exact ih h
      · rw [List.mem_singleton.mp h] at hkey
        exact absurd rfl hkey

theorem row_eq_of_id (hids : (rows.map EndpointRow.id).Nodup) {a b : EndpointRow} (ha : a ∈ rows) (hb : b ∈ rows)
    (h : a.id = b.id) : a = b :=
  List.inj_on_of_nodup_map hids ha hb h

theorem byId_eq (hids : (rows.map EndpointRow.id).Nodup) {row : EndpointRow} (h : row ∈ rows) :
    (byId rows).lookup row.id = some row := by
  obtain ⟨other, hother⟩ := byId_isSome h
  obtain ⟨hmem, hid⟩ := mem_of_byId hother
  rw [hother, row_eq_of_id hids hmem h hid]

/-! ## What the probes compare -/

section
variable {before after : CompiledEndpointTable EndpointRow} {row : EndpointRow}

variable {s : Reached} {paths : List String}

theorem probe_rows (h : (probe before after row s path).answering.lookup key = some other) :
    s.answering.lookup key = some other ∨
      other.id = key ∧ ∃ params, planEndpoint after row.method.pattern.text path = .endpoint other params := by
  unfold probe at h
  split at h
  · split at h
    · exact .inl h
    · split at h
      · rename_i now params hplan
        by_cases hkey : key = now.id
        · subst hkey
          rw [AList.lookup_insert] at h
          cases h
          exact .inr ⟨rfl, params, hplan⟩
        · rw [AList.lookup_insert_ne hkey] at h
          exact .inl h
      · exact .inl h
  · exact .inl h

theorem probe_keeps (h : ∃ other, s.answering.lookup key = some other) :
    ∃ other, (probe before after row s path).answering.lookup key = some other := by
  unfold probe
  split
  · split
    · exact h
    · split
      · rename_i now params hplan
        by_cases hkey : key = now.id
        · subst hkey
          exact ⟨now, AList.lookup_insert _⟩
        · rw [AList.lookup_insert_ne hkey]
          exact h
      · exact h
  · exact h

theorem probes_keep (h : ∃ other, s.answering.lookup key = some other) :
    ∃ other, (paths.foldl (probe before after row) s).answering.lookup key = some other := by
  induction paths generalizing s with
  | nil => exact h
  | cons path paths ih => exact ih (probe_keeps h)

theorem probes_rows (h : (paths.foldl (probe before after row) s).answering.lookup key = some other) :
    s.answering.lookup key = some other ∨
      other.id = key ∧ ∃ path params, planEndpoint after row.method.pattern.text path = .endpoint other params := by
  induction paths generalizing s with
  | nil => exact .inl h
  | cons path paths ih =>
    rcases ih h with hhere | hlater
    · rcases probe_rows hhere with hs | ⟨hid, params, hplan⟩
      · exact .inl hs
      · exact .inr ⟨hid, path, params, hplan⟩
    · exact .inr hlater

/-- A row that answers a probe the removed row answered is compared with it. -/
theorem probes_reach (hpath : path ∈ paths) {params params' : Endpoints.Params}
    (hwas : planEndpoint before row.method.pattern.text path = .endpoint was params) (hid : was.id = row.id)
    (hnow : planEndpoint after row.method.pattern.text path = .endpoint now params') :
    ∃ other, (paths.foldl (probe before after row) s).answering.lookup now.id = some other := by
  induction paths generalizing s with
  | nil => cases hpath
  | cons first rest ih =>
    rcases List.mem_cons.mp hpath with rfl | hrest
    · have hhere : (probe before after row s path).answering.lookup now.id = some now := by
        simp only [probe, hwas, hid, hnow, ne_eq, not_true_eq_false, if_false]
        exact AList.lookup_insert _
      rw [List.foldl_cons]
      exact probes_keep ⟨now, hhere⟩
    · exact ih hrest

end

theorem fateOf_all {reached : Reached} {row : EndpointRow} {baseline candidate : ContractArtifact}
    (h : fateOf reached row baseline candidate ≠ .widens) (hother : reached.answering.lookup key = some other) :
    admitsNoMoreThan candidate other baseline row = true := by
  have hmem : other ∈ reached.answering.pairs.map Prod.snd := List.mem_map.mpr ⟨(key, other), Record.mem_pairs.mpr hother, rfl⟩
  unfold fateOf at h
  by_cases hall : (reached.answering.pairs.map Prod.snd).all fun other => admitsNoMoreThan candidate other baseline row
  · exact List.all_eq_true.mp hall other hmem
  · have hne : reached.answering.pairs.map Prod.snd ≠ [] := List.ne_nil_of_mem hmem
    simp [hne, hall] at h

theorem compiledTable_of_accepted {artifact : ContractArtifact} (h : Accepted artifact.table) :
    compiledTable artifact = .ok (Endpoints.compiledTable artifact.table) := by
  rw [compiledTable, (compile_ok_iff _ _).mpr ⟨h, rfl⟩]
  rfl

/-- Where a removed row's paths go is compared on every probe. -/
theorem fallThrough_compares {row : EndpointRow} {baseline candidate : ContractArtifact} (hb : Accepted baseline.table)
    (hc : Accepted candidate.table) {fate : AccessEffect} (h : fallThrough row baseline candidate = .ok fate)
    (hfate : fate ≠ .widens)
    (hpath : path ∈ probePaths row.path ((baseline.endpoints ++ candidate.endpoints).map EndpointRow.path))
    (hcanonical : isCanonicalPath path = true) (hwas : MostSpecific baseline.table row.method.pattern.text path row)
    (hnow : MostSpecific candidate.table row.method.pattern.text path now) :
    admitsNoMoreThan candidate now baseline row = true := by
  rw [fallThrough, compiledTable_of_accepted hb, compiledTable_of_accepted hc] at h
  obtain ⟨params, hparams⟩ := Option.isSome_iff_exists.mp hwas.competes.fits
  obtain ⟨params', hparams'⟩ := Option.isSome_iff_exists.mp hnow.competes.fits
  have hplan := (planEndpoint_eq_endpoint hb hcanonical).mpr ⟨hwas, hparams⟩
  have hplan' := (planEndpoint_eq_endpoint hc hcanonical).mpr ⟨hnow, hparams'⟩
  obtain ⟨other, hother⟩ := probes_reach (s := {}) hpath hplan rfl hplan'
  rw [← Except.ok.inj h] at hfate
  have hall := fateOf_all hfate hother
  rcases probes_rows hother with hempty | ⟨hid, path', params'', hplanned⟩
  · cases hempty
  · have hcanonical' : isCanonicalPath path' = true := by
      by_contra hno
      rw [(Endpoints.planEndpoint_nonCanonical _ _ _).mpr (by simpa using hno)] at hplanned
      cases hplanned
    have hmem := ((planEndpoint_eq_endpoint hc hcanonical').mp hplanned).1.competes.mem
    obtain rfl : other = now := row_eq_of_id hc.ids hmem hnow.competes.mem hid
    exact hall

/-! ## What a comparison of endpoints leaves in place -/

theorem removedMountEffect_widens {mount : Option MountArtifact} {fates : List AccessEffect} (h : AccessEffect.widens ∈ fates) :
    removedMountEffect mount fates = .widens := by
  unfold removedMountEffect
  simp [h]

/-- Endpoints of which no line widens: a row that is there was there and may only narrow, and a
    removed one fell through to rows that admit no more. -/
structure EndpointsReviewed (baseline candidate : ContractArtifact) : Prop where
  kept : ∀ now ∈ candidate.endpoints, ∃ was ∈ baseline.endpoints, was.id = now.id ∧
    (was = now ∨ LinesKeep (endpointChanges was now))
  removed : ∀ was ∈ baseline.endpoints, (∀ now ∈ candidate.endpoints, now.id ≠ was.id) →
    ∃ fate, fallThrough was baseline candidate = .ok fate ∧ fate ≠ .widens

theorem compareEndpoints_reviewed {baseline candidate : ContractArtifact} (hids : (candidate.endpoints.map EndpointRow.id).Nodup)
    {changes : List AccessChange} (h : compareEndpoints baseline candidate = .ok changes) (hno : NoneWidens changes) :
    EndpointsReviewed baseline candidate := by
  obtain ⟨kept, hkept, h⟩ := except_bind_eq_ok.mp h
  obtain ⟨rows, hrows, h⟩ := except_bind_eq_ok.mp h
  obtain ⟨mounts, hmounts, h⟩ := except_bind_eq_ok.mp h
  rw [← Except.ok.inj h, noneWidens_append, noneWidens_append] at hno
  obtain ⟨⟨nkept, nrows⟩, nmounts⟩ := hno
  constructor
  · intro now hnow
    rcases compareKeyed_kept hkept nkept (byId_eq hids hnow) with ⟨_, hadded⟩ | ⟨was, hwas, hchange⟩
    · exact absurd rfl hadded
    · obtain ⟨hmem, hid⟩ := mem_of_byId hwas
      refine ⟨was, hmem, hid, ?_⟩
      rcases hchange with heq | ⟨found, hfound, hkeep⟩
      · exact .inl heq
      · cases hfound
        exact .inr hkeep
  · intro was hwas hgone
    have hnone : ((byId candidate.endpoints).lookup was.id).isNone = true := by
      rw [Option.isNone_iff_eq_none]
      by_contra hsome
      obtain ⟨now, hnow⟩ := Option.ne_none_iff_exists'.mp hsome
      obtain ⟨hmem, hid⟩ := mem_of_byId hnow
      exact hgone now hmem hid
    have hremoved : was ∈ removedRows baseline candidate := List.mem_filter.mpr ⟨hwas, hnone⟩
    by_cases hmount : ofRemovedMount baseline candidate was = true
    · have hname : was.source.name ∈ removedMounts baseline candidate := by
        rw [removedMounts, List.mem_eraseDups]
        exact List.mem_map.mpr ⟨was, List.mem_filter.mpr ⟨hremoved, hmount⟩, rfl⟩
      obtain ⟨change, hchange, hmem⟩ := except_mapM_all hmounts _ hname
      obtain ⟨fates, hfates, hchange⟩ := except_bind_eq_ok.mp hchange
      obtain ⟨fate, hfate, hin⟩ := except_mapM_all hfates was
        (List.mem_filter.mpr ⟨hremoved, by simp [hmount]⟩)
      refine ⟨fate, hfate, ?_⟩
      rintro rfl
      have hline := nmounts change hmem
      rw [← Except.ok.inj hchange] at hline
      exact hline (removedMountEffect_widens hin)
    · obtain ⟨change, hchange, hmem⟩ := except_mapM_all hrows was
        (List.mem_filter.mpr ⟨hremoved, by simpa using hmount⟩)
      obtain ⟨fate, hfate, hchange⟩ := except_bind_eq_ok.mp hchange
      refine ⟨fate, hfate, ?_⟩
      have hline := nrows change hmem
      rw [← Except.ok.inj hchange] at hline
      exact hline

/-! ## Removed rows -/

/-- A row the candidate dropped. -/
def Removed (before after : ContractArtifact) (row : EndpointRow) : Prop :=
  row ∈ before.endpoints ∧ ∀ now ∈ after.endpoints, now.id ≠ row.id

def endpointPaths (before after : ContractArtifact) : List String :=
  (before.endpoints ++ after.endpoints).map EndpointRow.path

section
variable {baseline candidate : ContractArtifact}

theorem row_keeps (h : was = now ∨ LinesKeep (endpointChanges was now)) :
    was.method = now.method ∧ was.path = now.path ∧ ∀ r, Admits now r → Admits was r := by
  rcases h with rfl | h
  · exact ⟨rfl, rfl, fun r hr => hr⟩
  · exact endpointChanges_keep h

variable {requested : String}

theorem serves_text {row : EndpointRow} (h : Endpoints.servesMethod (Endpoints.method row) requested = true) :
    requested = row.method.pattern.text := by
  have hm : Endpoints.method row = row.method.pattern := rfl
  rw [hm, Endpoints.servesMethod, Bool.or_eq_true, beq_iff_eq, beq_iff_eq] at h
  rcases h with h | h
  · cases hmethod : row.method <;> rw [hmethod] at h <;> cases h
  · exact h.symm

theorem patternOf_path {a b : EndpointRow} (h : a.path = b.path) : patternOf a = patternOf b := by
  unfold patternOf
  rw [show Endpoints.path a = Endpoints.path b from h]

theorem parsePattern_of_compiles {row : EndpointRow} (h : (compileRow row).isSome) :
    Endpoints.parsePattern row.path = .ok (patternOf row) := by
  obtain ⟨e, he⟩ := Option.isSome_iff_exists.mp h
  obtain ⟨_, hp⟩ := Endpoints.compileRow_eq_some.mp he
  have hp' : Endpoints.parsePattern row.path = .ok e.segments := hp
  rw [hp', patternOf, show Endpoints.path row = row.path from rfl, hp']

/-- A row with the route of one that competes for a request in the candidate competes for it in
    the baseline, which reserves no prefix more. -/
theorem competes_before (hreserved : baseline.reservedPrefixes ⊆ candidate.reservedPrefixes) (hmem : was ∈ baseline.endpoints)
    (hmethod : was.method = now.method) (hpath : was.path = now.path) (h : Competes candidate.table requested path now) :
    Competes baseline.table requested path was := by
  refine ⟨hmem, ?_, by rw [patternOf_path hpath]; exact h.fits, ?_⟩
  · rw [show Endpoints.method was = Endpoints.method now from congrArg RowMethod.pattern hmethod]
    exact h.serves
  · intro start hstart
    rw [show Endpoints.path was = Endpoints.path now from hpath]
    exact Endpoints.under_of_fewer (hreserved hstart.mem) hstart.under h.reserved

/-- A row of the candidate with the route of one that is more specific than the selected row would
    have been selected. -/
theorem not_more_specific (hc : Accepted candidate.table) (hcanonical : isCanonicalPath path = true)
    (hnow : MostSpecific candidate.table requested path now) (hmem : other ∈ candidate.endpoints)
    (hserves : Endpoints.servesMethod (Endpoints.method other) requested = true)
    (hfits : (matchSegments (patternOf other) (splitPath path)).isSome)
    (hlt : Endpoints.compareSpecificity (patternOf other) (patternOf now) < 0) : False := by
  have hcompetes : Competes candidate.table requested path other := by
    refine ⟨hmem, hserves, hfits, ?_⟩
    intro start hstart
    exact Endpoints.under_of_more_specific (hc.reserved start hstart.mem) hcanonical hstart.under (hc.parses other hmem)
      (hc.parses now hnow.competes.mem) (hnow.competes.reserved start hstart) hfits hlt
  by_cases heq : other = now
  · subst heq
    rw [Endpoints.compareSpecificity_neg] at hlt
    exact lt_irrefl _ hlt
  · have hgt := hnow.below other hcompetes heq
    rw [Endpoints.compareSpecificity_neg] at hlt hgt
    exact absurd (lt_trans hlt hgt) (lt_irrefl _)

/-- The row a request reached admits whatever the row it reaches now does, provided a removed row
    at its path does. -/
theorem admits_before (hb : Accepted baseline.table) (hc : Accepted candidate.table)
    (hreserved : baseline.reservedPrefixes ⊆ candidate.reservedPrefixes) (hreviewed : EndpointsReviewed baseline candidate)
    (hcanonical : isCanonicalPath path = true) (hnow : MostSpecific candidate.table requested path now)
    (hremoved : ∀ was, Removed baseline candidate was → MostSpecific baseline.table requested path was → ¬ AdmitsMore now was) :
    ∃ was, MostSpecific baseline.table requested path was ∧ ¬ AdmitsMore now was := by
  obtain ⟨kept, hkept, hid, hchange⟩ := hreviewed.kept now hnow.competes.mem
  obtain ⟨hmethod, hpath, hadmits⟩ := row_keeps hchange
  have hcompetes := competes_before hreserved hkept hmethod hpath hnow.competes
  obtain ⟨was, hwas, -⟩ := Endpoints.mostSpecific_unique hb hcanonical ⟨kept, hcompetes⟩
  refine ⟨was, hwas, ?_⟩
  by_cases heq : was = kept
  · subst heq
    exact NoMore.not_admitsMore ⟨hadmits, fun _ => hid⟩
  · -- A more specific row that is kept would be selected now too, so it is removed.
    refine hremoved was ⟨hwas.competes.mem, ?_⟩ hwas
    intro other hother hsame
    obtain ⟨was', hwas', hid', hchange'⟩ := hreviewed.kept other hother
    obtain rfl : was' = was := row_eq_of_id hb.ids hwas' hwas.competes.mem (hid'.trans hsame)
    obtain ⟨hmethod', hpath', _⟩ := row_keeps hchange'
    refine not_more_specific hc hcanonical hnow hother ?_ ?_ ?_
    · rw [← show Endpoints.method was' = Endpoints.method other from congrArg RowMethod.pattern hmethod']
      exact hwas.competes.serves
    · rw [← patternOf_path hpath']
      exact hwas.competes.fits
    · rw [← patternOf_path hpath', ← patternOf_path hpath]
      exact hwas.below kept hcompetes (Ne.symm heq)

end

/-! ## The canonical order admits the same -/

section
variable {artifact before after : ContractArtifact}

theorem endpoints_perm (artifact : ContractArtifact) :
    (artifact.table.endpoints.map canonicalizeEndpoint).Perm (canonicalizeArtifact artifact).table.endpoints :=
  (List.perm_insertionSort _ _).symm

theorem reservedPrefixes_perm (artifact : ContractArtifact) :
    artifact.table.reservedPrefixes.Perm (canonicalizeArtifact artifact).table.reservedPrefixes :=
  (List.perm_insertionSort _ _).symm

theorem accepted_canonical (h : Accepted artifact.table) : Accepted (canonicalizeArtifact artifact).table :=
  Endpoints.accepted_map (f := canonicalizeEndpoint) (fun _ => rfl) (fun _ => rfl) (fun _ => rfl) (endpoints_perm artifact)
    (reservedPrefixes_perm artifact) h

variable {row : EndpointRow}

theorem mostSpecific_canonical (h : Accepted artifact.table) {requested : String} :
    MostSpecific (canonicalizeArtifact artifact).table requested path row ↔
      ∃ r, canonicalizeEndpoint r = row ∧ MostSpecific artifact.table requested path r :=
  Endpoints.mostSpecific_map (f := canonicalizeEndpoint) (fun _ => rfl) (fun _ => rfl) (fun _ => rfl) (endpoints_perm artifact)
    (reservedPrefixes_perm artifact) h

theorem mem_endpoints_canonical :
    row ∈ (canonicalizeArtifact artifact).endpoints ↔ ∃ r ∈ artifact.endpoints, canonicalizeEndpoint r = row := by
  rw [show (canonicalizeArtifact artifact).endpoints = (canonicalizeArtifact artifact).table.endpoints from rfl,
    ← (endpoints_perm artifact).mem_iff, List.mem_map]
  rfl

theorem admits_canonical {r : AccessRequest} : Admits (canonicalizeEndpoint row) r ↔ Admits row r := by
  have hcaller : AdmitsCaller (canonicalAccess row.access) r ↔ AdmitsCaller row.access r := by
    cases row.access with
    | anonymous kind => exact Iff.rfl
    | credentialed kind callers requirement => simp only [canonicalAccess, AdmitsCaller, mem_sortedOn]
  have hbody : FitsBody (row.admission.map canonicalAdmission) r.body ↔ FitsBody row.admission r.body := by
    cases row.admission with
    | none => exact Iff.rfl
    | some admission => simp [FitsBody, canonicalAdmission]
  constructor
  · intro h
    exact ⟨hcaller.mp h.caller, hbody.mp h.body, h.origin⟩
  · intro h
    exact ⟨hcaller.mpr h.caller, hbody.mpr h.body, h.origin⟩

theorem turnsAway_canonical : TurnsAway (canonicalizeEndpoint row) ↔ TurnsAway row := by
  unfold TurnsAway opensToAnyone EndpointRow.kind EndpointRow.requirement
  show (_ ∧ _) ↔ _
  cases h : row.access with
  | anonymous kind => simp [canonicalizeEndpoint, canonicalAccess, h]
  | credentialed kind callers requirement => simp [canonicalizeEndpoint, canonicalAccess, h]

theorem admitsMore_canonical : AdmitsMore (canonicalizeEndpoint now) (canonicalizeEndpoint was) ↔ AdmitsMore now was := by
  unfold AdmitsMore
  simp only [admits_canonical, turnsAway_canonical]
  exact Iff.rfl

theorem endpointPaths_perm (before after : ContractArtifact) :
    (endpointPaths before after).Perm (endpointPaths (canonicalizeArtifact before) (canonicalizeArtifact after)) := by
  have hrows := ((endpoints_perm before).append (endpoints_perm after)).map EndpointRow.path
  rw [List.map_append, List.map_map, List.map_map] at hrows
  rw [endpointPaths, List.map_append]
  exact hrows

theorem removed_canonical :
    Removed (canonicalizeArtifact before) (canonicalizeArtifact after) (canonicalizeEndpoint row) →
      row ∈ before.endpoints → Removed before after row := by
  intro h hmem
  refine ⟨hmem, fun now hnow => ?_⟩
  exact h.2 (canonicalizeEndpoint now) ((mem_endpoints_canonical).mpr ⟨now, hnow, rfl⟩)

end

/-! ## Nobody new -/

/-- Every request the second table admits is admitted by the row the first one selects for it, and
    one that reaches a form, a webhook or a link's page on either side reaches the same row on both. -/
def AdmitsNobodyNew (before after : CompiledEndpointTable EndpointRow) : Prop :=
  ∀ r now params, planEndpoint after r.method r.path = .endpoint now params → Admits now r →
    ∃ was params', planEndpoint before r.method r.path = .endpoint was params' ∧ Admits was r ∧
      (TurnsAway now ∨ TurnsAway was → was.id = now.id)

/-- Told in the row paths' own segments, a path of a removed row lies under no reserved prefix it
    does not lie under itself. -/
def PrefixesClear (before after : ContractArtifact) : Prop :=
  ∀ row, Removed before after row → ∀ path, isCanonicalPath path = true →
    (matchSegments (patternOf row) (splitPath path)).isSome →
    ∀ start ∈ before.reservedPrefixes ++ after.reservedPrefixes,
      isUnder (retelling (row.path :: endpointPaths before after) path) start = true → isUnder path start = true

/-- Where a removed row's path falls to a row that admits more, the path, or another with its
    answers, keeps its place among the reserved prefixes. -/
def FallsSeen (before after : ContractArtifact) : Prop :=
  ∀ row now path params params', Removed before after row →
    planEndpoint (Endpoints.compiledTable before.table) row.method.pattern.text path = .endpoint row params →
    planEndpoint (Endpoints.compiledTable after.table) row.method.pattern.text path = .endpoint now params' → AdmitsMore now row →
    ∃ q, Stands (Endpoints.compiledTable before.table) (Endpoints.compiledTable after.table) row path q ∧
      KeepsPlace before.table after.table row q

section
variable {before after : ContractArtifact}

theorem canonical_of_selected {table : Endpoints.EndpointPatternTable EndpointRow} {requested : String} {row : EndpointRow}
    {params : Endpoints.Params} (h : planEndpoint (Endpoints.compiledTable table) requested path = .endpoint row params) :
    isCanonicalPath path = true := by
  by_contra hnot
  rw [(Endpoints.planEndpoint_nonCanonical _ _ _).mpr (by simpa using hnot)] at h
  cases h

/-- Where no prefix holds a retelling that the path itself does not lie under, the path keeps its
    place. -/
theorem fallsSeen_of_clear (hb : Accepted before.table) (hc : Accepted after.table) (hclear : PrefixesClear before after) :
    FallsSeen before after := by
  intro row now path params params' hremoved hwas hnow _
  have hcanonical := canonical_of_selected hwas
  have hrow := ((planEndpoint_eq_endpoint hb hcanonical).mp hwas).1
  obtain ⟨hfirst, hfree⟩ := (Endpoints.mostSpecific_iff_unreserved hb hcanonical).mp hrow
  obtain ⟨hsecond, hfree'⟩ := (Endpoints.mostSpecific_iff_unreserved hc hcanonical).mp
    ((planEndpoint_eq_endpoint hc hcanonical).mp hnow).1
  have hunder := hclear row hremoved path hcanonical hrow.competes.fits
  refine ⟨path, ⟨congrArg Endpoints.answer hwas, rfl⟩, ?_, ?_⟩
  · rintro ⟨start, hstart, hheld, hout⟩
    exact hfree ⟨start, hstart, hunder start (List.mem_append_left _ hstart) hheld, hout⟩
  · intro other hother
    obtain ⟨best, -, honly⟩ :=
      Endpoints.mostSpecific_unique (Endpoints.accepted_unreserved hc) hcanonical ⟨other, hother.competes⟩
    obtain rfl : other = now := (honly other hother).trans (honly now hsecond).symm
    refine iff_of_false ?_ hfree'
    rintro ⟨start, hstart, hheld, hout⟩
    exact hfree' ⟨start, hstart, hunder start (List.mem_append_right _ hstart) hheld, hout⟩

/-- A row that admits more than the removed one at some path is what some probe reaches. -/
theorem FallsSeen.probed (h : FallsSeen before after) (hb : Accepted before.table) (hc : Accepted after.table)
    {row : EndpointRow} (hremoved : Removed before after row) (hcanonical : isCanonicalPath path = true)
    (hwas : MostSpecific before.table row.method.pattern.text path row)
    (hnow : MostSpecific after.table row.method.pattern.text path now) (hmore : AdmitsMore now row) :
    ∃ q ∈ probePaths row.path (endpointPaths before after), isCanonicalPath q = true ∧
      MostSpecific before.table row.method.pattern.text q row ∧ MostSpecific after.table row.method.pattern.text q now := by
  obtain ⟨params, hparams⟩ := Option.isSome_iff_exists.mp hwas.competes.fits
  obtain ⟨params', hparams'⟩ := Option.isSome_iff_exists.mp hnow.competes.fits
  have hplan := (planEndpoint_eq_endpoint hb hcanonical).mpr ⟨hwas, hparams⟩
  have hplan' := (planEndpoint_eq_endpoint hc hcanonical).mpr ⟨hnow, hparams'⟩
  have hcompiles := (compile_ok_iff before.table _).mpr ⟨hb, rfl⟩
  have hcompiles' := (compile_ok_iff after.table _).mpr ⟨hc, rfl⟩
  obtain ⟨q, hq, hselects, hagrees⟩ :=
    (probes_stand_iff.1 before.table after.table _ _ hcompiles hcompiles' row path params hplan).2.mpr
    (h row now path params params' hremoved hplan hplan' hmore)
  have hanswer : Endpoints.answer (planEndpoint (Endpoints.compiledTable after.table) row.method.pattern.text q) =
      .endpoint now [] :=
    hagrees.trans (congrArg Endpoints.answer hplan')
  have hqcanonical : isCanonicalPath q = true := by
    by_contra hnot
    rw [(Endpoints.planEndpoint_nonCanonical _ _ _).mpr (by simpa using hnot)] at hanswer
    cases hanswer
  exact ⟨q, hq, hqcanonical, (Endpoints.answer_planEndpoint hb hqcanonical row).mp hselects,
    (Endpoints.answer_planEndpoint hc hqcanonical now).mp hanswer⟩

/-- Where the falls are seen and no line widens, the table admits nobody new. -/
theorem nobodyNew_of_seen (hb : Accepted before.table) (hc : Accepted after.table)
    (hreserved : (canonicalizeArtifact before).reservedPrefixes ⊆ (canonicalizeArtifact after).reservedPrefixes)
    (hreviewed : EndpointsReviewed (canonicalizeArtifact before) (canonicalizeArtifact after)) (hseen : FallsSeen before after) :
    AdmitsNobodyNew (Endpoints.compiledTable before.table) (Endpoints.compiledTable after.table) := by
  intro r now params hplan hadmits
  have hcanonical := canonical_of_selected hplan
  have hnow := ((planEndpoint_eq_endpoint hc hcanonical).mp hplan).1
  have hb' := accepted_canonical hb
  have hc' := accepted_canonical hc
  have hremoved : ∀ was, Removed (canonicalizeArtifact before) (canonicalizeArtifact after) was →
      MostSpecific (canonicalizeArtifact before).table r.method r.path was → ¬ AdmitsMore (canonicalizeEndpoint now) was := by
    intro was' hgone hwas' hmore
    obtain ⟨was, rfl, hwas⟩ := (mostSpecific_canonical hb).mp hwas'
    obtain ⟨fate, hfate, hkeeps⟩ := hreviewed.removed _ hgone.1 hgone.2
    have hmethod := serves_text hwas.competes.serves
    rw [hmethod] at hwas hnow
    obtain ⟨q, hq, hqcanonical, hqwas, hqnow⟩ :=
      hseen.probed hb hc (removed_canonical hgone hwas.competes.mem) hcanonical hwas hnow
      (admitsMore_canonical.mp hmore)
    have hcompared :=
      fallThrough_compares hb' hc' hfate hkeeps ((mem_probePaths_perm (endpointPaths_perm before after) _ q).mp hq) hqcanonical
      ((mostSpecific_canonical hb).mpr ⟨was, rfl, hqwas⟩) ((mostSpecific_canonical hc).mpr ⟨now, rfl, hqnow⟩)
    exact (noMore_of_admitsNoMoreThan hcompared).not_admitsMore hmore
  obtain ⟨was', hwas', hno⟩ :=
    admits_before hb' hc' hreserved hreviewed hcanonical ((mostSpecific_canonical hc).mpr ⟨now, rfl, hnow⟩) hremoved
  obtain ⟨was, rfl, hwas⟩ := (mostSpecific_canonical hb).mp hwas'
  rw [admitsMore_canonical] at hno
  obtain ⟨params', hparams'⟩ := Option.isSome_iff_exists.mp hwas.competes.fits
  have hboth : Admits was r ∧ (TurnsAway now ∨ TurnsAway was → was.id = now.id) := by
    by_contra hnot
    exact hno ⟨r, hadmits, hnot⟩
  exact ⟨was, params', (planEndpoint_eq_endpoint hb hcanonical).mpr ⟨hwas, hparams'⟩, hboth⟩

/-- Where the table admits nobody new, no path falls to a row that admits more. -/
theorem seen_of_nobodyNew (h : AdmitsNobodyNew (Endpoints.compiledTable before.table) (Endpoints.compiledTable after.table)) :
    FallsSeen before after := by
  intro row now path params params' _ hwas hnow hmore
  obtain ⟨r, hadmits, hnot⟩ := hmore
  let asked : AccessRequest := { r with method := row.method.pattern.text, path }
  obtain ⟨was, was', hplan, hrest⟩ := h asked now params' hnow ⟨hadmits.caller, hadmits.body, hadmits.origin⟩
  rw [show planEndpoint (Endpoints.compiledTable before.table) asked.method asked.path = _ from hwas] at hplan
  cases hplan
  exact absurd ⟨⟨hrest.1.caller, hrest.1.body, hrest.1.origin⟩, hrest.2⟩ hnot

end

def page (path : String) (access : RowAccess) : EndpointRow :=
  { id := "GET " ++ path, source := ⟨.mount, "site"⟩, method := .get, path, access, admission := none }

def signedIn : RowAccess := .credentialed .spa [.human] .member

def pages (rows : List EndpointRow) (starts : List String) : ContractArtifact :=
  { app := "pages", endpoints := rows, reservedPrefixes := starts }

/-- Members' pages, and public news that the candidate drops. -/
def newsBefore : ContractArtifact := pages [page "/*" signedIn, page "/news/:id" (.anonymous .publicSpa)] ["/api"]

def newsAfter : ContractArtifact := pages [page "/*" signedIn] ["/api"]

/-- A public page, and a members' page over some of its paths that the candidate drops. -/
def hiddenBefore : ContractArtifact := pages [page "/*" (.anonymous .publicSpa), page "/:a/:b" signedIn] ["/x"]

def hiddenAfter : ContractArtifact := pages [page "/*" (.anonymous .publicSpa)] ["/x"]

def aMember (path : String) : AccessRequest :=
  { method := "GET", path, caller := some .human, perms := [⟨"pages.read", none⟩], body := none, origin := .none }

def aStranger (path : String) : AccessRequest :=
  { method := "GET", path, caller := none, perms := [], body := none, origin := .none }

end Fabrika.Control
