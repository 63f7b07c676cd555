/-
  Fabrika.Control.DiffProofs — what a classification without a widening line says of the two
  contracts (see `Fabrika.Control.Diff`).

  Every comparison is read once, as what it leaves in place (`Reviewed`). `authority_kept_iff`
  then says that nothing the candidate allows is new, and no limit is larger, exactly when no
  site hides a new unscoped table behind a name of `Object.prototype`: the one lookup that reads
  such a name as declared.
-/

import Fabrika.Control.Diff

namespace Fabrika.Control

open Fabrika.Lib Fabrika.AuthCore

/-! ## What no comparison widens -/

/-- Every entry of `after` was there, and is the same or changed by lines that do not widen. -/
def KeptBy {α : Type} (before after : Record α) (changed : α → α → Answer (List RuledLine)) : Prop :=
  ∀ key now, after.lookup key = some now → ∃ was, before.lookup key = some was ∧
    (was = now ∨ ∃ found, changed was now = .ok found ∧ LinesKeep found)

variable {changes : List AccessChange} {α : Type} {baseline candidate artifact : ContractArtifact}
variable {column action name : String} {now was : TablePolicyArtifact} {after before : Record α}

theorem keptBy_of [DecidableEq α] {kind : ChangeSubjectKind} {lines : KeyedLines α} {changed : α → α → Answer (List RuledLine)}
    (hadded : ∀ key now, lines.added key now = .widens) (hchanged : ∀ key was now, lines.changed key was now = changed was now)
    (h : compareKeyed kind before after lines = .ok changes) (hno : NoneWidens changes) : KeptBy before after changed := by
  intro key now hnow
  rcases compareKeyed_kept h hno hnow with ⟨_, hadd⟩ | ⟨was, hwas, hkept⟩
  · exact absurd (hadded key now) hadd
  · refine ⟨was, hwas, ?_⟩
    rcases hkept with heq | ⟨found, hfound, hkeep⟩
    · exact .inl heq
    · exact .inr ⟨found, by rw [← hchanged key]; exact hfound, hkeep⟩

/-- Two contracts of which no line of the comparison widens. -/
structure Reviewed (baseline candidate : ContractArtifact) : Prop where
  endpoints : ∃ changes, compareEndpoints baseline candidate = .ok changes ∧ NoneWidens changes
  reserved : baseline.reservedPrefixes ⊆ candidate.reservedPrefixes
  roles : KeptBy baseline.roles candidate.roles fun was now => .ok (roleChanges was now)
  mounts : KeptBy baseline.mounts candidate.mounts fun was now => .ok (mountChanges was now)
  files : KeptBy baseline.files candidate.files fun was now => .ok (fileChanges was now)
  fileKinds : ∀ key now was, candidate.fileKinds.lookup key = some now → baseline.fileKinds.lookup key = some was →
    was = now ∨ LinesKeep (fileKindChanges was now)
  jobs : KeptBy baseline.jobs candidate.jobs fun was now => .ok (jobChanges was now)
  exported : KeptBy baseline.exports candidate.exports fun was now => .ok (exportChanges was now)
  imported : KeptBy baseline.imports candidate.imports fun was now => .ok (importChanges was now)
  csp : NoneWidens (compareCsp baseline candidate)
  tables : KeptBy baseline.tables candidate.tables tableChanges
  tokens : KeptBy baseline.tokens candidate.tokens fun was now => .ok (ruled "token.lifetime" (timeLimitChange was now))
  declared : ∃ changes, compareDeclared candidate.app baseline.declared candidate.declared = .ok changes ∧ NoneWidens changes
  procedures : NoneWidens (compareProcedures baseline candidate)

theorem reviewed_of (h : compareArtifacts baseline candidate = .ok changes) (hno : NoneWidens changes) :
    Reviewed baseline candidate := by
  unfold compareArtifacts at h
  obtain ⟨endpoints, hendpoints, h⟩ := except_bind_eq_ok.mp h
  obtain ⟨dimensions, _, h⟩ := except_bind_eq_ok.mp h
  obtain ⟨actions, _, h⟩ := except_bind_eq_ok.mp h
  obtain ⟨roles, hroles, h⟩ := except_bind_eq_ok.mp h
  obtain ⟨mounts, hmounts, h⟩ := except_bind_eq_ok.mp h
  obtain ⟨files, hfiles, h⟩ := except_bind_eq_ok.mp h
  obtain ⟨kinds, hkinds, h⟩ := except_bind_eq_ok.mp h
  obtain ⟨jobs, hjobs, h⟩ := except_bind_eq_ok.mp h
  obtain ⟨exports, hexports, h⟩ := except_bind_eq_ok.mp h
  obtain ⟨imports, himports, h⟩ := except_bind_eq_ok.mp h
  obtain ⟨tables, htables, h⟩ := except_bind_eq_ok.mp h
  obtain ⟨tokens, htokens, h⟩ := except_bind_eq_ok.mp h
  obtain ⟨declared, hdeclared, h⟩ := except_bind_eq_ok.mp h
  rw [← Except.ok.inj h] at hno
  simp only [noneWidens_append] at hno
  obtain ⟨⟨⟨⟨⟨⟨⟨⟨⟨⟨⟨⟨⟨⟨⟨⟨⟨⟨⟨⟨⟨_, nendpoints⟩, nreserved⟩, _⟩, _⟩, _⟩, _⟩, nroles⟩, _⟩, nmounts⟩, nfiles⟩, nkinds⟩, njobs⟩,
    nexports⟩, nimports⟩, ncsp⟩, ntables⟩, _⟩, ntokens⟩, ndeclared⟩, nprocedures⟩, _⟩ := hno
  exact
    { endpoints := ⟨endpoints, hendpoints, nendpoints⟩
      reserved := by
        rw [noneWidens_place, linesKeep_ruled, widens_setLines_reversed] at nreserved
        exact nreserved
      roles := keptBy_of (fun _ _ => rfl) (fun _ _ _ => rfl) hroles nroles
      mounts := keptBy_of (fun _ _ => rfl) (fun _ _ _ => rfl) hmounts nmounts
      files := keptBy_of (fun _ _ => rfl) (fun _ _ _ => rfl) hfiles nfiles
      fileKinds := by
        intro key now was hnow hwas
        rcases compareKeyed_kept hkinds nkinds hnow with ⟨hnone, _⟩ | ⟨was', hwas', hkept⟩
        · rw [hwas] at hnone
          cases hnone
        · rw [hwas] at hwas'
          cases hwas'
          rcases hkept with heq | ⟨found, hfound, hkeep⟩
          · exact .inl heq
          · cases hfound
            exact .inr hkeep
      jobs := keptBy_of (fun _ _ => rfl) (fun _ _ _ => rfl) hjobs njobs
      exported := keptBy_of (fun _ _ => rfl) (fun _ _ _ => rfl) hexports nexports
      imported := keptBy_of (fun _ _ => rfl) (fun _ _ _ => rfl) himports nimports
      csp := ncsp
      tables := keptBy_of (fun _ _ => rfl) (fun _ _ _ => rfl) htables ntables
      tokens := keptBy_of (fun _ _ => rfl) (fun _ _ _ => rfl) htokens ntokens
      declared := ⟨declared, hdeclared, ndeclared⟩
      procedures := nprocedures }

/-! ## What a contract allows -/

inductive Operation
  | read
  | insert
  | update
  | delete
  | appRead
  | appCount
  deriving DecidableEq

def operationActions (table : TablePolicyArtifact) : Operation → List String
  | .read => tableActions (some table.actions.read)
  | .insert => tableActions table.actions.insert
  | .update => tableActions table.actions.update
  | .delete => tableActions table.actions.delete
  | .appRead => table.actions.appRead
  | .appCount => table.actions.appCount

inductive Authority
  | grants (role action : String)
  | assigns (role assigner : String)
  | external (role : String)
  | operates (table : String) (operation : Operation) (action : String)
  | inserts (table column action : String)
  | updates (table column action : String)
  | sees (table column action : String)
  | runs (job action : String)
  | consumes (exported consumer : String)
  | calls (imported procedure : String)
  | uses (imported endpoint : String)
  | loads (directive origin : String)
  | sql (site : String) (mode : Mode)
  | unscoped (site table : String) (mode : Mode)
  | connects (site connector : String)
  | issues (site mount : String)
  | signs (site purpose : String)
  | acts (site action : String)
  | reaches (site origin : String)
  | binds (site webhook : String)
  deriving DecidableEq

/-- What a site declares, which only a contract of the staged kit records. -/
def Authority.ofSite : Authority → Bool
  | .sql _ _ | .unscoped _ _ _ | .connects _ _ | .issues _ _ | .signs _ _ | .acts _ _ | .reaches _ _ | .binds _ _ => true
  | _ => false

/-- Nothing, `read`, `write`: each reaches what the one before it does. -/
def Mode.Covers (declared : Option Mode) (mode : Mode) : Prop := declared = some .write ∨ declared = some mode

/-- `visibleFor`: a column with no read action of its own, or exactly this one. -/
def Visible (table : TablePolicyArtifact) (column action : String) : Prop :=
  (columnPolicy table.columns column).read = none ∨ (columnPolicy table.columns column).read = some action

/-- The update list for the table's update actions, and a column's own write action. -/
def Updates (table : TablePolicyArtifact) (column action : String) : Prop :=
  (column ∈ table.update ∧ action ∈ operationActions table .update) ∨
    (columnPolicy table.columns column).write = some action

def HasRole (artifact : ContractArtifact) (name : String) (P : RoleArtifact → Prop) : Prop :=
  ∃ role, artifact.roles.lookup name = some role ∧ P role

def HasTable (artifact : ContractArtifact) (name : String) (P : TablePolicyArtifact → Prop) : Prop :=
  ∃ table, artifact.tables.lookup name = some table ∧ P table

def HasSite (artifact : ContractArtifact) (site : String) (P : DeclaredReach → Prop) : Prop :=
  ∃ declared, artifact.declared = some declared ∧ ∃ reach, declared.lookup site = some reach ∧ P reach

def Allows (artifact : ContractArtifact) : Authority → Prop
  | .grants role action => HasRole artifact role fun r => action ∈ r.grants
  | .assigns role assigner => HasRole artifact role fun r => ∃ member, r.member = some member ∧ assigner ∈ member.assignableBy
  | .external role => HasRole artifact role fun r => r.external = true
  | .operates table operation action => HasTable artifact table fun t => action ∈ operationActions t operation
  | .inserts table column action => HasTable artifact table fun t => column ∈ t.insert ∧ action ∈ operationActions t .insert
  | .updates table column action => HasTable artifact table fun t => Updates t column action
  | .sees table column action => HasTable artifact table fun t => Visible t column action
  | .runs job action => ∃ j, artifact.jobs.lookup job = some j ∧ action ∈ j.actions
  | .consumes exported consumer => ∃ e, artifact.exports.lookup exported = some e ∧ consumer ∈ e.consumers
  | .calls imported procedure => ∃ i, artifact.imports.lookup imported = some i ∧ procedure ∈ i.procedures
  | .uses imported endpoint => ∃ i, artifact.imports.lookup imported = some i ∧ endpoint ∈ i.usedBy
  | .loads directive origin =>
    ∃ sources, (directive, sources) ∈ cspDirectives ∧ origin ∈ (sources artifact.csp).map CspSource.origin
  | .sql site mode => HasSite artifact site fun reach => Mode.Covers reach.sql mode
  | .unscoped site table mode => HasSite artifact site fun reach => Mode.Covers (reach.unscoped.lookup table) mode
  | .connects site connector => HasSite artifact site fun reach => connector ∈ reach.connect
  | .issues site mount => HasSite artifact site fun reach => reach.issues = some mount
  | .signs site purpose => HasSite artifact site fun reach => purpose ∈ reach.signs
  | .acts site action => HasSite artifact site fun reach => action ∈ reach.actions.getD []
  | .reaches site origin => HasSite artifact site fun reach => origin ∈ reach.egress
  | .binds site webhook => HasSite artifact site fun reach => reach.binds = some webhook

/-- No rate bucket, time limit, token lifetime, file limit or type set is larger. A procedure and
    a file kind the baseline does not record have no bounds to compare with. Left out are the rates
    of a form's mount, of which every change widens, and the time limit of an import, which bounds
    the application's own wait and no line compares. -/
structure NoLarger (baseline candidate : ContractArtifact) : Prop where
  procedures : ∀ id now was, candidate.procedures.lookup id = some now → baseline.procedures.lookup id = some was →
    Within now.rate.perClient was.rate.perClient ∧ Within now.rate.perCaller was.rate.perCaller ∧
      Within now.rate.perEndpoint was.rate.perEndpoint ∧ Within now.rate.bytesPerHour was.rate.bytesPerHour ∧
      now.timeoutMs ≤ was.timeoutMs
  jobs : ∀ name now, candidate.jobs.lookup name = some now → ∃ was, baseline.jobs.lookup name = some was ∧
    now.timeoutMs ≤ was.timeoutMs
  webhooks : ∀ name now, candidate.mounts.lookup name = some (.webhook now) → ∃ was,
    baseline.mounts.lookup name = some (.webhook was) ∧ now.timeoutMs ≤ was.timeoutMs
  tokens : ∀ purpose now, candidate.tokens.lookup purpose = some now → ∃ was, baseline.tokens.lookup purpose = some was ∧
    now ≤ was
  files : ∀ name now, candidate.files.lookup name = some now → ∃ was, baseline.files.lookup name = some was ∧
    now.maxBytes ≤ was.maxBytes ∧ Within now.maxPerOwner was.maxPerOwner ∧ now.types ⊆ was.types
  fileKinds : ∀ name now was, candidate.fileKinds.lookup name = some now → baseline.fileKinds.lookup name = some was →
    now.maxBytes ≤ was.maxBytes ∧ now.types ⊆ was.types

/-- The candidate allows what the baseline allowed and no more; of what sites declare, where
    both contracts declare it. -/
def AuthorityKept (baseline candidate : ContractArtifact) : Prop :=
  (∀ authority : Authority, (authority.ofSite = true → baseline.declared.isSome = true) → Allows candidate authority →
    Allows baseline authority) ∧ NoLarger baseline candidate

/-- A site declares `read` of a table that is named as a property of `Object.prototype`, which
    the baseline's site did not declare. -/
def HidesUnscoped (baseline candidate : ContractArtifact) : Prop :=
  ∃ before after, baseline.declared = some before ∧ candidate.declared = some after ∧
    ∃ site reach table, after.lookup site = some reach ∧ table ∈ prototypeProperties ∧
      reach.unscoped.lookup table = some .read ∧ ∀ was, before.lookup site = some was → was.unscoped.lookup table = none

/-! ## One entry -/

theorem keptBy_pure {f : α → α → List RuledLine} (h : KeptBy before after fun was now => .ok (f was now)) {P : α → Prop}
    (hstep : ∀ was now, LinesKeep (f was now) → P now → P was) {key : String} {now : α} (hnow : after.lookup key = some now)
    (hP : P now) : ∃ was, before.lookup key = some was ∧ P was := by
  obtain ⟨was, hwas, hkept⟩ := h key now hnow
  refine ⟨was, hwas, ?_⟩
  rcases hkept with rfl | ⟨found, hfound, hkeep⟩
  · exact hP
  · cases hfound
    exact hstep was now hkeep hP

@[simp] theorem widens_flagChange {before after : Bool} :
    AccessEffect.widens ∉ flagChange before after .widens .narrows ↔ (after = true → before = true) := by
  cases before <;> cases after <;> simp [flagChange]

@[simp] theorem widens_nameChange {before after : Option String} :
    AccessEffect.widens ∉ nameChange before after ↔ ∀ name, after = some name → before = some name := by
  unfold nameChange
  by_cases h : before = after
  · simp [h]
  · cases after with
    | none => cases before <;> simp
    | some name => simp [h]

theorem roleChanges_keep {was now : RoleArtifact} (h : LinesKeep (roleChanges was now)) :
    now.grants ⊆ was.grants ∧ (now.external = true → was.external = true) ∧
      ∀ after, now.member = some after → ∃ before, was.member = some before ∧ after.assignableBy ⊆ before.assignableBy := by
  unfold roleChanges externalChange at h
  cases hw : was.member with
  | none =>
    simp only [hw, linesKeep_append, linesKeep_ruled, widens_setChanges, widens_valueChange, widens_flagChange] at h
    obtain ⟨⟨hgrants, hmember⟩, hexternal⟩ := h
    refine ⟨hgrants, hexternal, ?_⟩
    intro after hafter
    rw [← hmember] at hafter
    cases hafter
  | some before =>
    cases hn : now.member with
    | none =>
      simp only [hw, hn, linesKeep_append, linesKeep_ruled, widens_setChanges, widens_flagChange] at h
      refine ⟨h.1.1, h.2, ?_⟩
      intro after hafter
      cases hafter
    | some after =>
      simp only [hw, hn] at h
      by_cases hscope : before.scope = after.scope
      · simp only [hscope, ne_eq, not_true_eq_false, if_false, linesKeep_append, linesKeep_ruled, widens_setChanges,
          widens_flagChange] at h
        refine ⟨h.1.1, h.2, ?_⟩
        intro member hmember
        cases hmember
        exact ⟨before, rfl, h.1.2⟩
      · simp only [hscope, ne_eq, not_false_eq_true, if_true, linesKeep_append, linesKeep_ruled, widens_setChanges,
          widens_valueChange, widens_flagChange, Option.some.injEq] at h
        exact absurd (congrArg Membership.scope h.1.2) hscope

theorem operationChanges_keep {before after : Option TableActionArtifact}
    (h : AccessEffect.widens ∉ operationChanges before after) : tableActions after ⊆ tableActions before := by
  unfold operationChanges at h
  split at h
  · rwa [widens_setChanges] at h
  · rwa [widens_setChanges] at h
  · rw [widens_valueChange] at h
    rw [h]
    exact List.Subset.refl _

theorem columnReadChange_keep {before after : Option String} (h : AccessEffect.widens ∉ columnReadChange before after) :
    before = none ∨ before = after := by
  cases before with
  | none => exact .inl rfl
  | some was =>
    cases after with
    | none => simp [columnReadChange] at h
    | some now =>
      rw [columnReadChange, widens_valueChange] at h
      exact .inr (by rw [h])

theorem columnWriteChange_keep {before after : Option String} (h : AccessEffect.widens ∉ columnWriteChange before after) :
    after = none ∨ before = after := by
  cases after with
  | none => exact .inl rfl
  | some now =>
    cases before with
    | none => simp [columnWriteChange] at h
    | some was =>
      rw [columnWriteChange, widens_valueChange] at h
      exact .inr (by rw [h])

/-- What the lines of one table keep. -/
structure TableKept (was now : TablePolicyArtifact) : Prop where
  operations : ∀ operation, operationActions now operation ⊆ operationActions was operation
  insert : now.insert ⊆ was.insert
  update : now.update ⊆ was.update
  column : ∀ column, LinesKeep (columnChanges was now column)

theorem columnPolicy_missing {columns : Record ColumnPolicyArtifact} (h : column ∉ columns.keys) :
    columnPolicy columns column = {} := by
  unfold columnPolicy Record.property
  cases hl : columns.lookup column with
  | some policy => exact absurd (Record.lookup_isSome_iff.mp ⟨policy, hl⟩) h
  | none => by_cases hp : column ∈ prototypeProperties <;> simp [hp]

theorem tableChanges_keep {found : List RuledLine} (h : tableChanges was now = .ok found) (hkeep : LinesKeep found) :
    TableKept was now := by
  obtain ⟨files, _, h⟩ := except_bind_eq_ok.mp h
  rw [← Except.ok.inj h] at hkeep
  simp only [linesKeep_append, linesKeep_ruled, widens_setChanges] at hkeep
  obtain ⟨⟨⟨⟨⟨⟨⟨⟨⟨⟨⟨⟨⟨_, _⟩, hread⟩, hinsert⟩, hupdate⟩, hdelete⟩, happRead⟩, happCount⟩, hinserts⟩, hupdates⟩, _⟩, _⟩,
    hcolumns⟩, _⟩ := hkeep
  refine ⟨?_, hinserts, hupdates, ?_⟩
  · intro operation
    cases operation with
    | read => exact operationChanges_keep hread
    | insert => exact operationChanges_keep hinsert
    | update => exact operationChanges_keep hupdate
    | delete => exact operationChanges_keep hdelete
    | appRead => exact happRead
    | appCount => exact happCount
  · intro column
    by_cases hmem : column ∈ union was.columns.keys now.columns.keys
    · intro line hline
      exact hcolumns line (List.mem_flatMap.mpr ⟨column, hmem, hline⟩)
    · -- A column neither side names has no action of its own on either.
      rw [mem_union, not_or] at hmem
      simp [columnChanges, columnPolicy_missing hmem.1, columnPolicy_missing hmem.2, columnReadChange, columnWriteChange]

theorem TableKept.visible (h : TableKept was now) (hv : Visible now column action) : Visible was column action := by
  have hc := h.column column
  simp only [columnChanges, linesKeep_append, linesKeep_ruled] at hc
  rcases columnReadChange_keep hc.1 with hnone | heq
  · exact .inl hnone
  · unfold Visible
    rw [heq]
    exact hv

theorem TableKept.updates (h : TableKept was now) (hu : Updates now column action) : Updates was column action := by
  rcases hu with ⟨hcolumn, haction⟩ | hwrite
  · exact .inl ⟨h.update hcolumn, h.operations .update haction⟩
  · have hc := h.column column
    simp only [columnChanges, linesKeep_append, linesKeep_ruled] at hc
    rcases columnWriteChange_keep hc.2 with hnone | heq
    · rw [hnone] at hwrite
      cases hwrite
    · exact .inr (by rw [heq]; exact hwrite)

theorem Reviewed.table (h : Reviewed baseline candidate) {P : TablePolicyArtifact → Prop}
    (hstep : ∀ was now, TableKept was now → P now → P was) (hnow : HasTable candidate name P) : HasTable baseline name P := by
  obtain ⟨now, hnow, hP⟩ := hnow
  obtain ⟨was, hwas, hkept⟩ := h.tables name now hnow
  refine ⟨was, hwas, ?_⟩
  rcases hkept with rfl | ⟨found, hfound, hkeep⟩
  · exact hP
  · exact hstep was now (tableChanges_keep hfound hkeep) hP

/-! ## One site -/

theorem modeChange_keep {before after : Option Mode} (h : AccessEffect.widens ∉ modeChange (ofMode before) (ofMode after))
    {mode : Mode} (hc : Mode.Covers after mode) : Mode.Covers before mode := by
  cases before with
  | none =>
    cases after with
    | none => exact hc
    | some now => cases now <;> simp [modeChange, ofMode] at h
  | some was =>
    cases was with
    | write => exact .inl rfl
    | read =>
      cases after with
      | none =>
        rcases hc with hc | hc <;> cases hc
      | some now =>
        cases now with
        | read => exact hc
        | write => simp [modeChange, ofMode] at h

/-- A declared table was declared, unless its name is one of `Object.prototype` and only `read`
    is new. -/
theorem unscopedChanges_keep {was now : Record Mode} (h : AccessEffect.widens ∉ unscopedChanges was now) {table : String}
    (hshown : table ∈ prototypeProperties → now.lookup table = some .read → was.lookup table ≠ none) {mode : Mode}
    (hc : Mode.Covers (now.lookup table) mode) : Mode.Covers (was.lookup table) mode := by
  obtain ⟨m, hm⟩ : ∃ m, now.lookup table = some m := by
    rcases hc with hc | hc
    · exact ⟨_, hc⟩
    · exact ⟨_, hc⟩
  have hkey : table ∈ union was.keys now.keys := mem_union.mpr (.inr (Record.lookup_isSome_iff.mp ⟨m, hm⟩))
  have hmode : AccessEffect.widens ∉ modeChange (was.property table) (now.property table) := by
    intro hw
    exact h (List.mem_flatMap.mpr ⟨table, hkey, hw⟩)
  rw [Record.property_eq_own.mpr hm] at hmode
  cases hl : was.lookup table with
  | some m' =>
    rw [Record.property_eq_own.mpr hl] at hmode
    rw [hm] at hc
    exact @modeChange_keep (some m') (some m) hmode mode hc
  | none =>
    by_cases hp : table ∈ prototypeProperties
    · cases m with
      | read => exact absurd hl (hshown hp hm)
      | write => simp [Record.property, hl, hp, modeChange] at hmode
    · simp [Record.property, hl, hp, modeChange] at hmode

theorem siteReach_eq_ok {sites : Record DeclaredReach} {site : String} {reach : DeclaredReach}
    (h : siteReach sites site = .ok reach) : sites.lookup site = some reach ∨ (sites.lookup site = none ∧ reach = {}) := by
  unfold siteReach Record.property at h
  cases hl : sites.lookup site with
  | some own =>
    simp only [hl] at h
    cases h
    exact .inl rfl
  | none =>
    by_cases hp : prototypeProperties.contains site = true
    · simp only [hl, hp, if_true] at h
      cases h
    · simp only [hl, hp] at h
      cases h
      exact .inr ⟨rfl, rfl⟩

/-- The lines of one site of the candidate, against what the baseline declares of it. -/
theorem Reviewed.siteLines (h : Reviewed baseline candidate) (hdeclared : baseline.declared.isSome = true)
    {after : Record DeclaredReach} (hafter : candidate.declared = some after) {site : String} {now : DeclaredReach}
    (hnow : after.lookup site = some now) :
    ∃ before was, baseline.declared = some before ∧ LinesKeep (siteChanges was now) ∧
      (before.lookup site = some was ∨ (before.lookup site = none ∧ was = {})) := by
  obtain ⟨before, hbefore⟩ := Option.isSome_iff_exists.mp hdeclared
  obtain ⟨changes, hchanges, hno⟩ := h.declared
  rw [hbefore, hafter] at hchanges
  obtain ⟨sites, hsites, hchanges⟩ := except_bind_eq_ok.mp hchanges
  rw [← Except.ok.inj hchanges, noneWidens_append, noneWidens_flatten] at hno
  have hkey : site ∈ union before.keys after.keys := mem_union.mpr (.inr (Record.lookup_isSome_iff.mp ⟨now, hnow⟩))
  obtain ⟨here, hhere, hmem⟩ := except_mapM_all hsites site hkey
  obtain ⟨was, hwas, hhere⟩ := except_bind_eq_ok.mp hhere
  obtain ⟨now', hnow', hhere⟩ := except_bind_eq_ok.mp hhere
  have hkeep := hno.2 here hmem
  rw [← Except.ok.inj hhere, noneWidens_place] at hkeep
  obtain rfl : now' = now := by
    rcases siteReach_eq_ok hnow' with hn | ⟨hn, _⟩
    · rw [hnow] at hn
      cases hn
      rfl
    · rw [hnow] at hn
      cases hn
  exact ⟨before, was, hbefore, hkeep, siteReach_eq_ok hwas⟩

theorem Reviewed.site {baseline candidate : ContractArtifact} (h : Reviewed baseline candidate)
    (hdeclared : baseline.declared.isSome = true) {site : String} {P : DeclaredReach → Prop}
    (hstep : ∀ was now, LinesKeep (siteChanges was now) → P now → P was) (hempty : ¬ P {})
    (hnow : HasSite candidate site P) : HasSite baseline site P := by
  obtain ⟨after, hafter, now, hnow, hP⟩ := hnow
  obtain ⟨before, was, hbefore, hkeep, hwas⟩ := h.siteLines hdeclared hafter hnow
  have hPwas := hstep was now hkeep hP
  rcases hwas with hl | ⟨_, rfl⟩
  · exact ⟨before, hbefore, was, hl, hPwas⟩
  · exact absurd hPwas hempty

theorem Reviewed.unscoped (h : Reviewed baseline candidate) (hdeclared : baseline.declared.isSome = true)
    (hshown : ¬ HidesUnscoped baseline candidate) {site table : String} {mode : Mode}
    (hnow : Allows candidate (.unscoped site table mode)) : Allows baseline (.unscoped site table mode) := by
  obtain ⟨after, hafter, now, hnow, hcovers⟩ := hnow
  obtain ⟨before, was, hbefore, hkeep, hwas⟩ := h.siteLines hdeclared hafter hnow
  simp only [siteChanges, reachSteps, linesKeep_append, linesKeep_ruled] at hkeep
  have hscope : table ∈ prototypeProperties → now.unscoped.lookup table = some .read → was.unscoped.lookup table ≠ none := by
    intro hp hread hnone
    apply hshown
    refine ⟨before, after, hbefore, hafter, site, now, table, hnow, hp, hread, ?_⟩
    intro was' hwas'
    rcases hwas with hl | ⟨hl, _⟩
    · rw [hl] at hwas'
      cases hwas'
      exact hnone
    · rw [hl] at hwas'
      cases hwas'
  have hwasCovers := unscopedChanges_keep hkeep.1.1.1.1.1.1.1.1.1.2 hscope hcovers
  rcases hwas with hl | ⟨_, rfl⟩
  · exact ⟨before, hbefore, was, hl, hwasCovers⟩
  · rcases hwasCovers with hc | hc <;> simp at hc

/-! ## Limits -/

theorem mountChanges_webhook {was : MountArtifact} {now : WebhookMountArtifact}
    (h : LinesKeep (mountChanges was (.webhook now))) : ∃ before, was = .webhook before ∧ now.timeoutMs ≤ before.timeoutMs := by
  cases was with
  | webhook before =>
    simp only [mountChanges, linesKeep_append, linesKeep_ruled, widens_timeLimitChange] at h
    exact ⟨before, rfl, h.2⟩
  | rpc _ | link _ | spa _ | health _ | form _ => simp [mountChanges] at h

theorem within_refl (limit : Option Nat) : Within limit limit := fun b hb => ⟨b, hb, Nat.le_refl b⟩

theorem Reviewed.noLarger (h : Reviewed baseline candidate) :
    NoLarger baseline candidate where
  procedures := by
    intro id now was hnow hwas
    have hp := h.procedures
    have hlines : LinesKeep (procedureChanges was now) := by
      intro line hline he
      refine hp ⟨.endpoint, id, line.rule, line.effect⟩ ?_ he
      refine List.mem_flatMap.mpr ⟨(id, now), Record.mem_pairs.mpr hnow, ?_⟩
      simp only [hwas, place, List.mem_map]
      exact ⟨line, hline, rfl⟩
    simp only [procedureChanges, linesKeep_append, linesKeep_ruled, List.mem_append, not_or, widens_limitChange,
      widens_timeLimitChange] at hlines
    obtain ⟨⟨⟨⟨⟨⟨hclient, hcaller⟩, hendpoint⟩, hbytes⟩, _⟩, htime⟩, _⟩ := hlines
    exact ⟨hclient, hcaller, hendpoint, hbytes, htime⟩
  jobs := by
    intro name now hnow
    refine keptBy_pure h.jobs (P := fun job => now.timeoutMs ≤ job.timeoutMs) ?_ hnow (Nat.le_refl _)
    intro was now' hkeep hle
    simp only [jobChanges, linesKeep_append, linesKeep_ruled, widens_timeLimitChange] at hkeep
    exact Nat.le_trans hle hkeep.2
  webhooks := by
    intro name now hnow
    obtain ⟨was, hwas, hkept⟩ := h.mounts name _ hnow
    rcases hkept with rfl | ⟨found, hfound, hkeep⟩
    · exact ⟨now, hwas, Nat.le_refl _⟩
    · cases hfound
      obtain ⟨before, rfl, hle⟩ := mountChanges_webhook hkeep
      exact ⟨before, hwas, hle⟩
  tokens := by
    intro purpose now hnow
    refine keptBy_pure h.tokens (P := fun days => now ≤ days) ?_ hnow (Nat.le_refl _)
    intro was now' hkeep hle
    rw [linesKeep_ruled, widens_timeLimitChange] at hkeep
    exact Nat.le_trans hle hkeep
  files := by
    intro name now hnow
    obtain ⟨was, hwas, hkept⟩ := h.files name now hnow
    rcases hkept with rfl | ⟨found, hfound, hkeep⟩
    · exact ⟨was, hwas, Nat.le_refl _, within_refl _, List.Subset.refl _⟩
    · cases hfound
      simp only [fileChanges, linesKeep_append, linesKeep_ruled, widens_limitChange, widens_setChanges] at hkeep
      obtain ⟨⟨⟨⟨_, hsize⟩, howner⟩, htypes⟩, _⟩ := hkeep.1
      obtain ⟨a, ha, hle⟩ := hsize _ rfl
      cases ha
      exact ⟨was, hwas, hle, howner, htypes⟩
  fileKinds := by
    intro name now was hnow hwas
    rcases h.fileKinds name now was hnow hwas with rfl | hkeep
    · exact ⟨Nat.le_refl _, List.Subset.refl _⟩
    · simp only [fileKindChanges, linesKeep_append, linesKeep_ruled, widens_limitChange, widens_setChanges] at hkeep
      obtain ⟨a, ha, hle⟩ := hkeep.1.1.2 _ rfl
      cases ha
      exact ⟨hle, hkeep.1.1.1⟩

/-! ## The whole contract -/

theorem compareCsp_keep (h : NoneWidens (compareCsp baseline candidate)) {directive : String}
    {sources : CspExtensions → List CspSource} (hd : (directive, sources) ∈ cspDirectives) :
    (sources candidate.csp).map CspSource.origin ⊆ (sources baseline.csp).map CspSource.origin := by
  have hlines : NoneWidens (place .csp directive (ruled "csp.source"
      (setChanges ((sources baseline.csp).map CspSource.origin) ((sources candidate.csp).map CspSource.origin)))) := by
    intro change hchange
    exact h change (List.mem_flatMap.mpr ⟨_, hd, hchange⟩)
  rwa [noneWidens_place, linesKeep_ruled, widens_setChanges] at hlines

theorem Reviewed.role (h : Reviewed baseline candidate) {P : RoleArtifact → Prop}
    (hstep : ∀ was now, LinesKeep (roleChanges was now) → P now → P was) (hnow : HasRole candidate name P) :
    HasRole baseline name P := by
  obtain ⟨now, hnow, hP⟩ := hnow
  exact keptBy_pure h.roles hstep hnow hP

/-- Every line of a site's reach, with what each keeps. -/
structure SiteKept (was now : DeclaredReach) : Prop where
  sql : AccessEffect.widens ∉ modeChange (ofMode was.sql) (ofMode now.sql)
  connect : now.connect ⊆ was.connect
  issues : ∀ mount, now.issues = some mount → was.issues = some mount
  actions : now.actions.getD [] ⊆ was.actions.getD []
  binds : ∀ webhook, now.binds = some webhook → was.binds = some webhook
  signs : now.signs ⊆ was.signs
  egress : now.egress ⊆ was.egress

theorem siteChanges_keep {was now : DeclaredReach} (h : LinesKeep (siteChanges was now)) : SiteKept was now := by
  simp only [siteChanges, reachSteps, issuesChange, bindsChange, linesKeep_append, linesKeep_ruled, widens_setChanges,
    widens_nameChange] at h
  obtain ⟨⟨⟨⟨⟨⟨⟨⟨⟨⟨hsql, _⟩, hconnect⟩, hissues⟩, _⟩, _⟩, _⟩, hactions⟩, hbinds⟩, hsigns⟩, hegress⟩ := h
  exact ⟨hsql, hconnect, hissues, hactions, hbinds, hsigns, hegress⟩

theorem Reviewed.allows (h : Reviewed baseline candidate) (hshown : ¬ HidesUnscoped baseline candidate) (authority : Authority)
    (hsite : authority.ofSite = true → baseline.declared.isSome = true) (hnow : Allows candidate authority) :
    Allows baseline authority := by
  cases authority with
  | grants role action => exact h.role (fun _ _ hk hm => (roleChanges_keep hk).1 hm) hnow
  | assigns role assigner =>
    refine h.role (fun was now hk hm => ?_) hnow
    obtain ⟨after, hafter, hmem⟩ := hm
    obtain ⟨before, hbefore, hsub⟩ := (roleChanges_keep hk).2.2 after hafter
    exact ⟨before, hbefore, hsub hmem⟩
  | external role => exact h.role (fun _ _ hk hm => (roleChanges_keep hk).2.1 hm) hnow
  | operates table operation action => exact h.table (fun _ _ hk hm => hk.operations operation hm) hnow
  | inserts table column action =>
    exact h.table (fun _ _ hk hm => ⟨hk.insert hm.1, hk.operations .insert hm.2⟩) hnow
  | updates table column action => exact h.table (fun _ _ hk hm => hk.updates hm) hnow
  | sees table column action => exact h.table (fun _ _ hk hm => hk.visible hm) hnow
  | runs job action =>
    obtain ⟨now, hnow, hm⟩ := hnow
    refine keptBy_pure h.jobs (P := fun j => action ∈ j.actions) (fun was now hk hm => ?_) hnow hm
    simp only [jobChanges, linesKeep_append, linesKeep_ruled, widens_setChanges] at hk
    exact hk.1.1 hm
  | consumes exported consumer =>
    obtain ⟨now, hnow, hm⟩ := hnow
    refine keptBy_pure h.exported (P := fun e => consumer ∈ e.consumers) (fun was now hk hm => ?_) hnow hm
    simp only [exportChanges, linesKeep_append, linesKeep_ruled, widens_setChanges] at hk
    exact hk.1.1 hm
  | calls imported procedure =>
    obtain ⟨now, hnow, hm⟩ := hnow
    refine keptBy_pure h.imported (P := fun i => procedure ∈ i.procedures) (fun was now hk hm => ?_) hnow hm
    simp only [importChanges, linesKeep_append, linesKeep_ruled, widens_setChanges] at hk
    exact hk.1.1 hm
  | uses imported endpoint =>
    obtain ⟨now, hnow, hm⟩ := hnow
    refine keptBy_pure h.imported (P := fun i => endpoint ∈ i.usedBy) (fun was now hk hm => ?_) hnow hm
    simp only [importChanges, linesKeep_append, linesKeep_ruled, widens_setChanges] at hk
    exact hk.1.2 hm
  | loads directive origin =>
    obtain ⟨sources, hd, hm⟩ := hnow
    exact ⟨sources, hd, compareCsp_keep h.csp hd hm⟩
  | sql site mode =>
    refine h.site (hsite rfl) (fun _ _ hk hm => modeChange_keep (siteChanges_keep hk).sql hm) ?_ hnow
    intro hc
    rcases hc with hc | hc <;> cases hc
  | unscoped site table mode => exact h.unscoped (hsite rfl) hshown hnow
  | connects site connector =>
    exact h.site (hsite rfl) (fun _ _ hk hm => (siteChanges_keep hk).connect hm) (by simp) hnow
  | issues site mount => exact h.site (hsite rfl) (fun _ _ hk hm => (siteChanges_keep hk).issues mount hm) (by simp) hnow
  | signs site purpose => exact h.site (hsite rfl) (fun _ _ hk hm => (siteChanges_keep hk).signs hm) (by simp) hnow
  | acts site action => exact h.site (hsite rfl) (fun _ _ hk hm => (siteChanges_keep hk).actions hm) (by simp) hnow
  | reaches site origin => exact h.site (hsite rfl) (fun _ _ hk hm => (siteChanges_keep hk).egress hm) (by simp) hnow
  | binds site webhook => exact h.site (hsite rfl) (fun _ _ hk hm => (siteChanges_keep hk).binds webhook hm) (by simp) hnow

theorem AuthorityKept.shown (h : AuthorityKept baseline candidate) : ¬ HidesUnscoped baseline candidate := by
  rintro ⟨before, after, hbefore, hafter, site, reach, table, hsite, _, hread, hnone⟩
  have hnow : Allows candidate (.unscoped site table .read) := ⟨after, hafter, reach, hsite, .inr hread⟩
  obtain ⟨before', hbefore', was, hwas, hcovers⟩ := h.1 _ (fun _ => by rw [hbefore]; rfl) hnow
  rw [hbefore] at hbefore'
  cases hbefore'
  rw [hnone was hwas] at hcovers
  rcases hcovers with hc | hc <;> cases hc

/-! ## The canonical order carries no meaning -/

theorem exists_mapValues {β : Type} {record : Record α} {f : α → β} {P : β → Prop} :
    (∃ value, (record.mapValues f).lookup name = some value ∧ P value) ↔
      ∃ value, record.lookup name = some value ∧ P (f value) := by
  rw [Record.lookup_mapValues]
  cases record.lookup name with
  | none => simp
  | some value => simp

theorem mem_sortedOn {key : α → String} {values : List α} {value : α} : value ∈ sortedOn key values ↔ value ∈ values :=
  (List.perm_insertionSort _ values).mem_iff

theorem mem_tableActions_canonical {actions : Option TableActionArtifact} {action : String} :
    action ∈ tableActions (actions.map canonicalActions) ↔ action ∈ tableActions actions := by
  cases actions with
  | none => exact Iff.rfl
  | some actions =>
    cases actions with
    | one own => exact Iff.rfl
    | several own => exact mem_sorted

theorem mem_operationActions_canonical {table : TablePolicyArtifact} {operation : Operation} :
    action ∈ operationActions (canonicalTable table) operation ↔ action ∈ operationActions table operation := by
  cases operation with
  | read => exact @mem_tableActions_canonical (some table.actions.read) action
  | insert => exact mem_tableActions_canonical
  | update => exact mem_tableActions_canonical
  | delete => exact mem_tableActions_canonical
  | appRead => exact mem_sorted
  | appCount => exact mem_sorted

theorem hasSite_canonical {site : String} {P : DeclaredReach → Prop} (hP : ∀ reach, P (canonicalReach reach) ↔ P reach) :
    HasSite (canonicalizeArtifact artifact) site P ↔ HasSite artifact site P := by
  unfold HasSite canonicalizeArtifact
  cases artifact.declared with
  | none => simp
  | some declared => simp [Record.lookup_mapValues, hP]

theorem hasTable_canonical {P : TablePolicyArtifact → Prop} (hP : ∀ table, P (canonicalTable table) ↔ P table) :
    HasTable (canonicalizeArtifact artifact) name P ↔ HasTable artifact name P := by
  unfold HasTable canonicalizeArtifact
  rw [exists_mapValues]
  simp only [hP]

theorem hasRole_canonical {P : RoleArtifact → Prop} (hP : ∀ role, P (canonicalRole role) ↔ P role) :
    HasRole (canonicalizeArtifact artifact) name P ↔ HasRole artifact name P := by
  unfold HasRole canonicalizeArtifact
  rw [exists_mapValues]
  simp only [hP]

theorem mem_origins_canonical {directive : String} {sources : CspExtensions → List CspSource}
    (hd : (directive, sources) ∈ cspDirectives) {csp : CspExtensions} {origin : String} :
    origin ∈ (sources (canonicalCsp csp)).map CspSource.origin ↔ origin ∈ (sources csp).map CspSource.origin := by
  simp only [cspDirectives, List.mem_cons, List.not_mem_nil, or_false, Prod.mk.injEq] at hd
  rcases hd with ⟨_, rfl⟩ | ⟨_, rfl⟩ | ⟨_, rfl⟩ | ⟨_, rfl⟩ | ⟨_, rfl⟩ | ⟨_, rfl⟩ | ⟨_, rfl⟩ | ⟨_, rfl⟩ <;>
    simp [canonicalCsp, mem_sortedOn]

theorem allows_canonical {authority : Authority} :
    Allows (canonicalizeArtifact artifact) authority ↔ Allows artifact authority := by
  cases authority with
  | grants role action => exact hasRole_canonical fun _ => mem_sorted
  | assigns role assigner =>
    refine hasRole_canonical fun r => ?_
    cases hr : r.member with
    | none => simp [canonicalRole, hr]
    | some member => simp [canonicalRole, hr]
  | external role => exact hasRole_canonical fun _ => Iff.rfl
  | operates table operation action => exact hasTable_canonical fun _ => mem_operationActions_canonical
  | inserts table column action =>
    exact hasTable_canonical fun _ => and_congr mem_sorted mem_operationActions_canonical
  | updates table column action =>
    exact hasTable_canonical fun _ => or_congr (and_congr mem_sorted mem_operationActions_canonical) Iff.rfl
  | sees table column action => exact hasTable_canonical fun _ => Iff.rfl
  | runs job action => simp [Allows, canonicalizeArtifact, exists_mapValues]
  | consumes exported consumer => simp [Allows, canonicalizeArtifact, exists_mapValues]
  | calls imported procedure => simp [Allows, canonicalizeArtifact, exists_mapValues]
  | uses imported endpoint => simp [Allows, canonicalizeArtifact, exists_mapValues]
  | loads directive origin =>
    exact exists_congr fun sources => and_congr_right fun hd => mem_origins_canonical hd
  | sql site mode => exact hasSite_canonical fun _ => Iff.rfl
  | unscoped site table mode => exact hasSite_canonical fun _ => Iff.rfl
  | connects site connector => exact hasSite_canonical fun _ => mem_sorted
  | issues site mount => exact hasSite_canonical fun _ => Iff.rfl
  | signs site purpose => exact hasSite_canonical fun _ => mem_sorted
  | acts site action =>
    refine hasSite_canonical fun reach => ?_
    cases hr : reach.actions <;> simp [canonicalReach, hr]
  | reaches site origin => exact hasSite_canonical fun _ => mem_sorted
  | binds site webhook => exact hasSite_canonical fun _ => Iff.rfl

theorem declared_canonical : (canonicalizeArtifact artifact).declared.isSome = artifact.declared.isSome := by
  simp [canonicalizeArtifact]

theorem sorted_subset {a b : List String} : sorted a ⊆ sorted b ↔ a ⊆ b := by
  simp [List.subset_def]

/-- A bound on entries that the canonical order leaves as they are. -/
theorem bound_of_mapValues {f : α → α} {P : α → α → Prop} (hP : ∀ now was, P (f now) (f was) → P now was)
    (h : ∀ key now, (after.mapValues f).lookup key = some now → ∃ was, (before.mapValues f).lookup key = some was ∧ P now was)
    (key : String) (now : α) (hnow : after.lookup key = some now) : ∃ was, before.lookup key = some was ∧ P now was := by
  obtain ⟨was, hwas, hp⟩ := (exists_mapValues).mp (h key (f now) (by rw [Record.lookup_mapValues, hnow]; rfl))
  exact ⟨was, hwas, hP now was hp⟩

theorem noLarger_of_canonical (h : NoLarger (canonicalizeArtifact baseline) (canonicalizeArtifact candidate)) :
    NoLarger baseline candidate where
  procedures := h.procedures
  jobs := bound_of_mapValues (f := fun job : JobArtifact => { job with actions := sorted job.actions })
    (P := fun now was => now.timeoutMs ≤ was.timeoutMs) (fun _ _ hle => hle) h.jobs
  webhooks := by
    intro name now hnow
    obtain ⟨was, hwas, hle⟩ := h.webhooks name { now with actions := sorted now.actions } (by
      show (candidate.mounts.mapValues canonicalMount).lookup name = _
      rw [Record.lookup_mapValues, hnow]
      rfl)
    have hcanon : (baseline.mounts.mapValues canonicalMount).lookup name = some (.webhook was) := hwas
    rw [Record.lookup_mapValues, Option.map_eq_some_iff] at hcanon
    obtain ⟨mount, hmount, heq⟩ := hcanon
    cases mount with
    | webhook before =>
      cases heq
      exact ⟨before, hmount, hle⟩
    | rpc _ | link _ | spa _ | health _ | form _ => cases heq
  tokens := h.tokens
  files := bound_of_mapValues (f := canonicalFiles)
    (P := fun now was => now.maxBytes ≤ was.maxBytes ∧ Within now.maxPerOwner was.maxPerOwner ∧ now.types ⊆ was.types)
    (fun _ _ hle => ⟨hle.1, hle.2.1, (sorted_subset).mp hle.2.2⟩) h.files
  fileKinds := by
    intro name now was hnow hwas
    obtain ⟨hsize, htypes⟩ := h.fileKinds name { now with types := sorted now.types } { was with types := sorted was.types }
      (by
        show (candidate.fileKinds.mapValues _).lookup name = _
        rw [Record.lookup_mapValues, hnow]
        rfl)
      (by
        show (baseline.fileKinds.mapValues _).lookup name = _
        rw [Record.lookup_mapValues, hwas]
        rfl)
    exact ⟨hsize, (sorted_subset).mp htypes⟩

theorem hidesUnscoped_of_canonical (h : HidesUnscoped (canonicalizeArtifact baseline) (canonicalizeArtifact candidate)) :
    HidesUnscoped baseline candidate := by
  obtain ⟨before, after, hbefore, hafter, site, reach, table, hsite, hproto, hread, hnone⟩ := h
  obtain ⟨before', hbefore', rfl⟩ := Option.map_eq_some_iff.mp hbefore
  obtain ⟨after', hafter', rfl⟩ := Option.map_eq_some_iff.mp hafter
  rw [Record.lookup_mapValues, Option.map_eq_some_iff] at hsite
  obtain ⟨reach', hsite', rfl⟩ := hsite
  refine ⟨before', after', hbefore', hafter', site, reach', table, hsite', hproto, hread, ?_⟩
  intro was hwas
  exact hnone (canonicalReach was) (by rw [Record.lookup_mapValues, hwas]; rfl)

theorem classifyAccess_reviewed {baseline candidate : AccessSnapshot} {before after : ContractArtifact}
    (hbefore : baseline.contract = some before) (hafter : candidate.contract = some after)
    (h : classifyAccess baseline candidate = .ok changes) (hno : NoneWidens changes) :
    Reviewed (canonicalizeArtifact before) (canonicalizeArtifact after) := by
  obtain ⟨contracts, hcontracts, h⟩ := except_bind_eq_ok.mp h
  obtain ⟨migrations, _, h⟩ := except_bind_eq_ok.mp h
  rw [← Except.ok.inj h, noneWidens_append, noneWidens_append, noneWidens_append] at hno
  rw [hbefore, hafter] at hcontracts
  exact reviewed_of hcontracts hno.1.1.1

/-- Where no line of the classification widens, the candidate allows nothing the baseline did
    not, and no limit is larger, exactly when no site hides an unscoped table behind a name of
    `Object.prototype`. -/
theorem authority_kept_iff {baseline candidate : AccessSnapshot} {before after : ContractArtifact}
    (hbefore : baseline.contract = some before) (hafter : candidate.contract = some after) {changes : List AccessChange}
    (h : classifyAccess baseline candidate = .ok changes) (hno : NoneWidens changes) :
    AuthorityKept before after ↔ ¬ HidesUnscoped before after := by
  have hreviewed := classifyAccess_reviewed hbefore hafter h hno
  constructor
  · intro hkept
    exact hkept.shown
  · intro hshown
    refine ⟨?_, noLarger_of_canonical hreviewed.noLarger⟩
    intro authority hsite hnow
    rw [← allows_canonical] at hnow ⊢
    refine hreviewed.allows (fun hhides => hshown (hidesUnscoped_of_canonical hhides)) authority ?_ hnow
    intro hof
    rw [declared_canonical]
    exact hsite hof

/-! ## A table named `constructor` -/

/-- A contract of one role and one site, which reaches `tables` unscoped. -/
def notesArtifact (grants : List String) (tables : Record Mode) : ContractArtifact :=
  { app := "notes"
    roles := [⟨"editor", { grants, member := none }⟩].toAList
    declared := some [⟨"notes.list", { unscoped := tables }⟩].toAList }

def notesSnapshot (grants : List String) (tables : Record Mode) : AccessSnapshot :=
  { contract := some (notesArtifact grants tables) }

/-- A role loses an action and a site goes from `write` to `read` of a table. -/
theorem a_narrowing_keeps_authority :
    (classifyAccess (notesSnapshot ["notes.read", "notes.write"] [⟨"notes", .write⟩].toAList)
        (notesSnapshot ["notes.read"] [⟨"notes", .read⟩].toAList)).toOption =
      some [⟨.role, "editor", "role.grants", .narrows⟩, ⟨.endpoint, "notes.list", "reach.unscoped", .narrows⟩] ∧
    AuthorityKept (notesArtifact ["notes.read", "notes.write"] [⟨"notes", .write⟩].toAList)
      (notesArtifact ["notes.read"] [⟨"notes", .read⟩].toAList) := by
  have hclass : (classifyAccess (notesSnapshot ["notes.read", "notes.write"] [⟨"notes", .write⟩].toAList)
      (notesSnapshot ["notes.read"] [⟨"notes", .read⟩].toAList)).toOption =
      some [⟨.role, "editor", "role.grants", .narrows⟩, ⟨.endpoint, "notes.list", "reach.unscoped", .narrows⟩] := by
    decide
  refine ⟨hclass, ?_⟩
  cases hc : classifyAccess (notesSnapshot ["notes.read", "notes.write"] [⟨"notes", .write⟩].toAList)
      (notesSnapshot ["notes.read"] [⟨"notes", .read⟩].toAList) with
  | error e => rw [hc] at hclass; cases hclass
  | ok changes =>
    rw [hc] at hclass
    cases hclass
    refine (authority_kept_iff rfl rfl hc (by simp [NoneWidens])).mpr ?_
    rintro ⟨before, after, _, hafter, site, reach, table, hsite, hproto, hread, _⟩
    cases hafter
    have htables : ∀ entry ∈ ([⟨"notes.list", { unscoped := [⟨"notes", .read⟩].toAList }⟩].toAList : Record
        DeclaredReach).entries,
        ∀ table ∈ entry.2.unscoped.keys, table ∉ prototypeProperties := by decide
    have hmem := AList.mem_lookup_iff.mp hsite
    exact htables _ hmem table (Record.lookup_isSome_iff.mp ⟨_, hread⟩) hproto

/-- A new unscoped read of a table named `constructor` is shown as narrowing. -/
theorem a_constructor_table_is_hidden :
    (classifyAccess (notesSnapshot [] ∅) (notesSnapshot [] [⟨"constructor", .read⟩].toAList)).toOption =
      some [⟨.endpoint, "notes.list", "reach.unscoped", .narrows⟩] ∧
    Allows (notesArtifact [] [⟨"constructor", .read⟩].toAList) (.unscoped "notes.list" "constructor" .read) ∧
    ¬ Allows (notesArtifact [] ∅) (.unscoped "notes.list" "constructor" .read) := by
  refine ⟨by decide, ?_, ?_⟩
  · exact ⟨_, rfl, _, rfl, .inr rfl⟩
  · rintro ⟨declared, hdeclared, reach, hsite, hcovers⟩
    cases hdeclared
    have hempty : ∀ entry ∈ ([⟨"notes.list", { unscoped := ∅ }⟩].toAList : Record DeclaredReach).entries,
        entry.2.unscoped.keys = [] := by decide
    have hmem := AList.mem_lookup_iff.mp hsite
    have hkeys := hempty _ hmem
    have htable : "constructor" ∈ reach.unscoped.keys := by
      rcases hcovers with hc | hc
      · exact Record.lookup_isSome_iff.mp ⟨_, hc⟩
      · exact Record.lookup_isSome_iff.mp ⟨_, hc⟩
    rw [hkeys] at htable
    cases htable

end Fabrika.Control
