/-
  Fabrika.Iam.MemberRolesProofs — revocations and the last creator of a scope value (see
  `Fabrika.Iam.MemberRoles`).

  Both dialects run a list of audited DELETEs to the same outcome (`groups_run`): each removes its
  rows, records itself exactly when it removed one, and the answer lists the roles removed. Over
  that outcome the creator's DELETE keeps another holder, and while the member still holds the
  creator role every later DELETE of the batch is void. What the guard calls active is read off the
  clock before the batch runs, so another holder's grant may have run out since (`Timely`).
-/

import Fabrika.Iam.MemberRoles

namespace Fabrika.Iam.MemberRoles

variable {ε : Type} {dialect : Dialect} {audit : String → ε}

/-! ## What a batch of audited deletes comes to -/

/-- The grants left, the records written and the roles removed. -/
structure Outcome (ε : Type) where
  grants : Grants
  records : List (AuditRow ε)
  removed : List String

def outcome (audit : String → ε) (id : Nat) (grants : Grants) : List Delete → Outcome ε
  | [] => ⟨grants, [], []⟩
  | d :: rest =>
    let later := outcome audit (id + 1) (d.kept grants) rest
    { grants := later.grants
      records := (if d.returned grants = [] then [] else [⟨id, audit d.roleKey⟩]) ++ later.records
      removed := d.returned grants ++ later.removed }

theorem outcome_cons (audit : String → ε) (id : Nat) (grants : Grants) (d : Delete) (rest : List Delete) :
    (outcome audit id grants (d :: rest)).grants = (outcome audit (id + 1) (d.kept grants) rest).grants := rfl

theorem batch_append (db : Database ε) (a b : List (Statement ε)) :
    (batch db (a ++ b)).1 = (batch (batch db a).1 b).1 ∧ (batch db (a ++ b)).2 = (batch db a).2 ++
    (batch (batch db a).1 b).2 := by
  induction a generalizing db with
  | nil => exact ⟨rfl, rfl⟩
  | cons statement rest ih =>
    obtain ⟨hdb, hresults⟩ := ih (exec db statement).1
    exact ⟨hdb, congrArg ((exec db statement).2 :: ·) hresults⟩

theorem batch_length (db : Database ε) (statements : List (Statement ε)) :
    (batch db statements).2.length = statements.length := by
  induction statements generalizing db with
  | nil => rfl
  | cons statement rest ih => exact congrArg (· + 1) (ih _)

variable (dialect) in
/-- One audited DELETE, in either dialect. -/
theorem changed_run (db : Database ε) (d : Delete) (id : Nat) (event : ε) (hfresh : ∀ row ∈ db.audit, row.id ≠ id) :
    (batch db (changed dialect [d] id event).statements).1.grants = d.kept db.grants ∧
      (batch db (changed dialect [d] id event).statements).1.audit =
        db.audit ++ (if d.returned db.grants = [] then [] else [⟨id, event⟩]) ∧
      ∀ before after, (changed dialect [d] id event).rows
        (before ++ (batch db (changed dialect [d] id event).statements).2 ++ after) before.length = d.returned db.grants := by
  cases dialect with
  | postgres =>
    refine ⟨?_, ?_, ?_⟩
    · simp [changed, batch, exec, Delete.kept]
    · by_cases hnone : d.returned db.grants = []
      · simp [changed, batch, exec, hnone]
      · simp [changed, batch, exec, hnone]
    · intro before after
      simp [changed, AuditedChange.rows, batch, exec]
  | sqlite =>
    have hany : (db.audit.any fun row => decide (row.id = id)) = false := by
      simpa using hfresh
    refine ⟨?_, ?_, ?_⟩
    · by_cases hnone : d.returned db.grants = []
      · simp [changed, batch, exec, hnone]
      · simp [changed, batch, exec, hnone, List.length_pos_iff, hany]
    · simp only [changed, List.flatMap_cons, List.flatMap_nil, List.append_nil, batch, exec, hany]
      by_cases hnone : d.returned db.grants = []
      · simp [hnone]
      · simp [hnone, List.length_pos_iff]
    · intro before after
      simp [changed, AuditedChange.rows, batch, exec]

variable (dialect audit) in
/-- The audited DELETEs of a batch, whatever the batch ran before. -/
theorem groups_run (deletes : List Delete) (id : Nat) (db : Database ε)
    (hfresh : ∀ row ∈ db.audit, row.id ∉ List.range' id deletes.length) :
    (batch db ((groups dialect audit id deletes).flatMap (·.statements))).1.grants = (outcome audit id db.grants deletes).grants ∧
      (batch db ((groups dialect audit id deletes).flatMap (·.statements))).1.audit =
        db.audit ++ (outcome audit id db.grants deletes).records ∧
      ∀ before, removed (before ++ (batch db ((groups dialect audit id deletes).flatMap (·.statements))).2) before.length
        (groups dialect audit id deletes) = (outcome audit id db.grants deletes).removed := by
  induction deletes generalizing id db with
  | nil => exact ⟨rfl, by simp [groups, batch, outcome], fun _ => rfl⟩
  | cons d rest ih =>
    have hhere : ∀ row ∈ db.audit, row.id ≠ id := by
      intro row hrow e
      exact hfresh row hrow (by simp [e])
    obtain ⟨hgrants, haudit, hrows⟩ := changed_run dialect db d id (audit d.roleKey) hhere
    have hlater : ∀ row ∈ (batch db (changed dialect [d] id (audit d.roleKey)).statements).1.audit,
        row.id ∉ List.range' (id + 1) rest.length := by
      intro row hrow hmem
      rw [haudit] at hrow
      rcases List.mem_append.mp hrow with hrow | hrow
      · refine hfresh row hrow ?_
        rw [List.length_cons, List.range'_succ]
        exact List.mem_cons_of_mem _ hmem
      · split at hrow
        · cases hrow
        · rw [List.mem_singleton.mp hrow, List.mem_range'_1] at hmem
          dsimp only at hmem
          omega
    obtain ⟨hgrants', haudit', hremoved⟩ := ih (id + 1) _ hlater
    simp only [groups, List.flatMap_cons]
    obtain ⟨hdb, hresults⟩ := batch_append db (changed dialect [d] id (audit d.roleKey)).statements
      ((groups dialect audit (id + 1) rest).flatMap (·.statements))
    rw [hdb, hresults]
    refine ⟨?_, ?_, ?_⟩
    · rw [hgrants', hgrants]
      rfl
    · rw [haudit', haudit, hgrants, List.append_assoc]
      rfl
    · intro before
      have hfirst := hrows before
        (batch (batch db (changed dialect [d] id (audit d.roleKey)).statements).1
          ((groups dialect audit (id + 1) rest).flatMap (·.statements))).2
      have hrest := hremoved (before ++ (batch db (changed dialect [d] id (audit d.roleKey)).statements).2)
      rw [List.length_append, batch_length, List.append_assoc, hgrants] at hrest
      rw [List.append_assoc] at hfirst
      simp only [removed, hfirst, hrest]
      rfl

/-! ## What an outcome removes -/

variable {d : Delete} {deletes : List Delete} {grants : Grants} {g : Grant} {id : Nat}

theorem mem_kept : g ∈ (d.kept grants).rows ↔ g ∈ grants.rows ∧ d.matched grants.rows g = false := by
  simp [Delete.kept]

variable {rows : List Grant} {role app principalId creator : String} {scope : Scope}

theorem matched_isOf (h : d.matched rows g = true) :
    g.app = some d.app ∧ g.roleKey = some d.roleKey ∧ g.scope = some d.scope ∧ g.principalId = d.principalId ∧
    d.met rows = true := by
  simp only [Delete.matched, Grant.isOf, Bool.and_eq_true, decide_eq_true_eq] at h
  exact ⟨h.1.1.1.1, h.1.1.1.2, h.1.1.2, h.1.2, h.2⟩

theorem matched_of (happ : g.app = some d.app) (hrole : g.roleKey = some d.roleKey) (hscope : g.scope = some d.scope)
    (hprincipal : g.principalId = d.principalId) : d.matched rows g = d.met rows := by
  simp [Delete.matched, Grant.isOf, happ, hrole, hscope, hprincipal]

theorem mem_returned : role ∈ d.returned grants ↔ role = d.roleKey ∧ ∃ g ∈ grants.rows, d.matched grants.rows g = true := by
  simp only [Delete.returned, List.mem_map, List.mem_filter]
  constructor
  · rintro ⟨g, hg, rfl⟩
    exact ⟨rfl, g, hg⟩
  · rintro ⟨rfl, g, hg⟩
    exact ⟨g, hg, rfl⟩

theorem outcome_subset (audit : String → ε) (deletes : List Delete) (id : Nat) (grants : Grants) :
    (outcome audit id grants deletes).grants.rows ⊆ grants.rows := by
  induction deletes generalizing id grants with
  | nil => exact fun _ h => h
  | cons d rest ih => exact fun g hg => ((mem_kept).mp (ih (id + 1) (d.kept grants) hg)).1

/-- A grant that no DELETE matches stays. -/
theorem outcome_keeps (hno : ∀ d ∈ deletes, ∀ rows, d.matched rows g = false) (hg : g ∈ grants.rows) :
    g ∈ (outcome audit id grants deletes).grants.rows := by
  induction deletes generalizing id grants with
  | nil => exact hg
  | cons d rest ih =>
    refine ih (fun d' hd' => hno d' (by simp [hd'])) ((mem_kept).mpr ⟨hg, hno d (by simp) _⟩)

/-- The roles answered are those of the grants that went. -/
theorem mem_removed : role ∈ (outcome audit id grants deletes).removed ↔
    ∃ g ∈ grants.rows, g ∉ (outcome audit id grants deletes).grants.rows ∧ g.roleKey = some role := by
  induction deletes generalizing id grants with
  | nil =>
    constructor
    · intro h
      cases h
    · rintro ⟨g, hg, hgone, -⟩
      exact absurd hg hgone
  | cons d rest ih =>
    simp only [outcome, List.mem_append, mem_returned]
    constructor
    · rintro (⟨rfl, g, hg, hmatched⟩ | hlater)
      · refine ⟨g, hg, fun hmem => ?_, (matched_isOf hmatched).2.1⟩
        have hkept := ((mem_kept).mp (outcome_subset audit rest (id + 1) (d.kept grants) hmem)).2
        cases hmatched.symm.trans hkept
      · obtain ⟨g, hg, hgone, hrole⟩ := ih.mp hlater
        exact ⟨g, ((mem_kept).mp hg).1, hgone, hrole⟩
    · rintro ⟨g, hg, hgone, hrole⟩
      by_cases hmatched : d.matched grants.rows g = true
      · refine .inl ⟨?_, g, hg, hmatched⟩
        exact Option.some.inj (hrole.symm.trans (matched_isOf hmatched).2.1)
      · refine .inr (ih.mpr ⟨g, (mem_kept).mpr ⟨hg, by simpa using hmatched⟩, hgone, hrole⟩)

/-- Two grants a DELETE matches are one row. -/
theorem returned_cases (d : Delete) (grants : Grants) : d.returned grants = [] ∨ d.returned grants = [d.roleKey] := by
  unfold Delete.returned
  have hunique : (grants.rows.filter (d.matched grants.rows)).Pairwise Distinct := grants.unique.filter _
  rcases hrows : grants.rows.filter (d.matched grants.rows) with _ | ⟨a, _ | ⟨b, rest⟩⟩
  · exact .inl rfl
  · exact .inr rfl
  · rw [hrows] at hunique
    have hmatched : ∀ g ∈ a :: b :: rest, d.matched grants.rows g = true := by
      intro g hg
      rw [← hrows] at hg
      exact (List.mem_filter.mp hg).2
    obtain ⟨happ, hrole, hscope, hprincipal, -⟩ := matched_isOf (hmatched a (by simp))
    obtain ⟨happ', hrole', hscope', hprincipal', -⟩ := matched_isOf (hmatched b (by simp))
    refine absurd ?_ ((List.pairwise_cons.mp hunique).1 b (by simp) (by simp [hrole]) (by simp [hscope]))
    simp [Grant.key, happ, hrole, hscope, hprincipal, happ', hrole', hscope', hprincipal']

/-- The DELETEs of one member in one scope. -/
def OfMember (app principalId : String) (scope : Scope) (deletes : List Delete) : Prop :=
  ∀ d ∈ deletes, d.app = app ∧ d.principalId = principalId ∧ d.scope = scope

theorem removed_nodup (h : OfMember app principalId scope deletes) : (outcome audit id grants deletes).removed.Nodup := by
  induction deletes generalizing id grants with
  | nil => exact .nil
  | cons d rest ih =>
    have hrest : (outcome audit (id + 1) (d.kept grants) rest).removed.Nodup := ih (fun d' hd' => h d' (by simp [hd']))
    show (d.returned grants ++ (outcome audit (id + 1) (d.kept grants) rest).removed).Nodup
    rcases returned_cases d grants with hnone | hone
    · rw [hnone]
      exact hrest
    · rw [hone, List.singleton_append, List.nodup_cons]
      refine ⟨fun hagain => ?_, hrest⟩
      -- The DELETE took every grant of the role the member had there.
      obtain ⟨-, first, hfirst, hmatched⟩ := (mem_returned).mp (hone ▸ List.mem_singleton_self d.roleKey)
      have hmet := (matched_isOf hmatched).2.2.2.2
      obtain ⟨g, hg, hgone, hrole⟩ := (mem_removed).mp hagain
      obtain ⟨hg', hkept⟩ := (mem_kept).mp hg
      refine hgone (outcome_keeps (fun d' hd' rows => ?_) hg)
      by_contra hd
      obtain ⟨happ, hrole', hscope, hprincipal, -⟩ := matched_isOf (by simpa using hd)
      obtain ⟨hd1, hd2, hd3⟩ := h d' (by simp [hd'])
      obtain ⟨he1, he2, he3⟩ := h d (by simp)
      rw [matched_of (by rw [happ, hd1, he1]) hrole (by rw [hscope, hd3, he3]) (by rw [hprincipal, hd2, he2]), hmet] at hkept
      cases hkept

/-- One record a role removed, with ids of the range drawn. -/
theorem records_spec (audit : String → ε) (deletes : List Delete) (id : Nat) (grants : Grants) :
    (outcome audit id grants deletes).records.map (·.event) = (outcome audit id grants deletes).removed.map audit ∧
      ((outcome audit id grants deletes).records.map (·.id)).Pairwise (· < ·) ∧
      ∀ row ∈ (outcome audit id grants deletes).records, row.id ∈ List.range' id deletes.length := by
  induction deletes generalizing id grants with
  | nil => exact ⟨rfl, .nil, fun _ h => nomatch h⟩
  | cons d rest ih =>
    obtain ⟨hevents, hids, hrange⟩ := ih (id + 1) (d.kept grants)
    have hlater : ∀ row ∈ (outcome audit (id + 1) (d.kept grants) rest).records, row.id ∈ List.range' id (rest.length + 1) := by
      intro row hrow
      rw [List.range'_succ]
      exact List.mem_cons_of_mem _ (hrange row hrow)
    rcases returned_cases d grants with hnone | hone
    · simp only [outcome, hnone, if_true, List.nil_append]
      exact ⟨hevents, hids, hlater⟩
    · simp only [outcome, hone, List.cons_ne_nil, if_false, List.singleton_append, List.map_cons, hevents, List.pairwise_cons,
        List.mem_cons, forall_eq_or_imp]
      refine ⟨trivial, ⟨fun n hn => ?_, hids⟩, by simp, hlater⟩
      obtain ⟨row, hrow, rfl⟩ := List.mem_map.mp hn
      have := hrange row hrow
      rw [List.mem_range'_1] at this
      omega

/-! ## The deletes of a revocation -/

section Revocation

variable {input : RevokeInput} {now : Nat}

theorem creator_some (h : input.creator = some creator) : input.creatorRole = some creator ∧ creator ∈ input.roles := by
  simpa [RevokeInput.creator, Option.filter_eq_some_iff] using h

theorem deletes_ofMember (input : RevokeInput) (now : Nat) :
    OfMember input.app input.principalId input.scope (input.deletes now) := by
  intro d hd
  rcases List.mem_append.mp hd with hd | hd
  · obtain ⟨creator, -, rfl⟩ := List.mem_map.mp hd
    exact ⟨rfl, rfl, rfl⟩
  · obtain ⟨role, -, rfl⟩ := List.mem_map.mp hd
    exact ⟨rfl, rfl, rfl⟩

/-- The creator's DELETE, then the others. -/
theorem deletes_creator (h : input.creator = some creator) : input.deletes now =
    deleteCreatorChange input.app input.principalId creator input.scope now ::
      (input.roles.filter fun role => some role ≠ some creator).map fun role =>
        ⟨input.app, input.principalId, role, input.scope, .creatorGone creator now⟩ := by
  simp [RevokeInput.deletes, h]

theorem deletes_named (hd : d ∈ input.deletes now) : d.roleKey ∈ input.roles := by
  rcases List.mem_append.mp hd with hd | hd
  · obtain ⟨creator, hcreator, rfl⟩ := List.mem_map.mp hd
    have hsome : input.creator = some creator := by simpa using hcreator
    exact (creator_some hsome).2
  · obtain ⟨role, hrole, rfl⟩ := List.mem_map.mp hd
    exact (List.mem_filter.mp hrole).1

theorem active_earlier {time : Nat} (hle : now ≤ time) (h : g.active time = true) : g.active now = true := by
  unfold Grant.active at h ⊢
  cases hexpires : g.expiresAt with
  | none => rfl
  | some at_ =>
    rw [hexpires] at h
    simp only [Option.all_some, decide_eq_true_eq] at h ⊢
    omega

/-- Where nothing of the batch deletes the role, its grants stay. -/
theorem role_keeps (hg : g ∈ grants.rows) (hrole : g.roleKey = some role) (hno : ∀ d ∈ deletes, d.roleKey ≠ role) :
    g ∈ (outcome audit id grants deletes).grants.rows := by
  refine outcome_keeps (fun d hd rows => ?_) hg
  by_contra hmatched
  obtain ⟨-, hrole', -⟩ := matched_isOf (by simpa using hmatched)
  exact hno d hd (Option.some.inj (hrole'.symm.trans hrole))

/-- Another principal holds the role in the scope at the time. -/
def AnotherHolds (rows : List Grant) (app principalId role : String) (scope : Scope) (time : Nat) : Prop :=
  ∃ g ∈ rows, g.isOf app role scope = true ∧ g.principalId ≠ principalId ∧ g.active time = true

/-- Some principal holds the role in the scope at the time. -/
def Holds (rows : List Grant) (app role : String) (scope : Scope) (time : Nat) : Prop :=
  ∃ g ∈ rows, g.isOf app role scope = true ∧ g.active time = true

theorem met_another :
    (deleteCreatorChange app principalId role scope now).met rows = true ↔ AnotherHolds rows app principalId role scope now := by
  simp only [deleteCreatorChange, Delete.met, AnotherHolds, List.any_eq_true, Bool.and_eq_true, bne_iff_ne, and_assoc]

theorem isOf_iff : g.isOf app role scope = true ↔ g.app = some app ∧ g.roleKey = some role ∧ g.scope = some scope := by
  simp [Grant.isOf, and_assoc]

/-- DELETEs that are void while a grant is there, and it stays: nothing goes. -/
theorem outcome_void {held : Grant} (hvoid : ∀ d ∈ deletes, ∀ rows, held ∈ rows → d.met rows = false)
    (hheld : held ∈ grants.rows) (hg : g ∈ grants.rows) : g ∈ (outcome audit id grants deletes).grants.rows := by
  induction deletes generalizing id grants with
  | nil => exact hg
  | cons d rest ih =>
    have hkeeps : ∀ g ∈ grants.rows, g ∈ (d.kept grants).rows := by
      intro g hg
      refine (mem_kept).mpr ⟨hg, ?_⟩
      rw [Delete.matched, hvoid d (by simp) _ hheld, Bool.and_false]
    exact ih (fun d' hd' => hvoid d' (by simp [hd'])) (hkeeps held hheld) (hkeeps g hg)

/-- While the member still holds the creator role the batch names, no role of the member goes. -/
theorem revocation_all_or_nothing {held : Grant} (hcreator : input.creator = some creator)
    (hof : held.isOf input.app creator input.scope = true) (hmember : held.principalId = input.principalId)
    (hactive : held.active now = true) (hstays : held ∈ (outcome audit id grants (input.deletes now)).grants.rows)
    (hg : g ∈ grants.rows) : g ∈ (outcome audit id grants (input.deletes now)).grants.rows := by
  rw [deletes_creator hcreator, outcome_cons] at hstays ⊢
  have hkept := (mem_kept).mp (outcome_subset audit _ (id + 1) _ hstays)
  obtain ⟨happ, hrole, hscope⟩ := (isOf_iff).mp hof
  have hnotmet : (deleteCreatorChange input.app input.principalId creator input.scope now).met grants.rows = false := by
    have hmatched := hkept.2
    rwa [matched_of happ hrole hscope hmember] at hmatched
  have hg' : g ∈ ((deleteCreatorChange input.app input.principalId creator input.scope now).kept grants).rows := by
    refine (mem_kept).mpr ⟨hg, ?_⟩
    rw [Delete.matched, hnotmet, Bool.and_false]
  refine outcome_void (fun d hd rows hrows => ?_) ((mem_kept).mpr hkept) hg'
  obtain ⟨role, -, rfl⟩ := List.mem_map.mp hd
  simp only [Delete.met, Bool.not_eq_false', List.any_eq_true]
  exact ⟨held, hrows, by simp [hof, hmember, hactive]⟩

end Revocation

/-! ## Running a batch -/

theorem lock_run (db : Database ε) (app principalId : String) (scope : Scope) :
    (batch db ([.grantRemoval principalId] ++ scopeLockStatements app scope)).1.grants = db.grants ∧
      (batch db ([.grantRemoval principalId] ++ scopeLockStatements app scope)).1.audit = db.audit := by
  by_cases hscope : (app, scope) ∈ db.scopes
  · simp [scopeLockStatements, batch, exec, hscope]
  · simp [scopeLockStatements, batch, exec, hscope]

variable {w : World ε}

def World.ran (dialect : Dialect) (w : World ε) (call : Call ε) : Database ε := (batch w.db (call.batch dialect).statements).1

variable (dialect audit) in
theorem revoke_run {input : RevokeInput} {now : Nat} (hfresh : ∀ row ∈ w.db.audit,
      row.id ∉ List.range' id (input.deletes now).length) :
    (w.ran dialect (.revoke input audit now id)).grants = (outcome audit id w.db.grants (input.deletes now)).grants ∧
      (w.ran dialect (.revoke input audit now id)).audit =
        w.db.audit ++ (outcome audit id w.db.grants (input.deletes now)).records ∧
      w.answer dialect (.revoke input audit now id) = (outcome audit id w.db.grants (input.deletes now)).removed := by
  obtain ⟨hdb, hresults⟩ := batch_append w.db ([.grantRemoval input.principalId] ++ scopeLockStatements input.app input.scope)
    ((groups dialect audit id (input.deletes now)).flatMap (·.statements))
  obtain ⟨hgrantsLocked, hauditLocked⟩ := lock_run w.db input.app input.principalId input.scope
  obtain ⟨hgrants, haudit, hremoved⟩ := groups_run dialect audit (input.deletes now) id
    (batch w.db ([.grantRemoval input.principalId] ++ scopeLockStatements input.app input.scope)).1 (hauditLocked ▸ hfresh)
  rw [hgrantsLocked] at hgrants haudit hremoved
  rw [hauditLocked] at haudit
  refine ⟨?_, ?_, ?_⟩
  · exact (congrArg Database.grants hdb).trans hgrants
  · exact (congrArg Database.audit hdb).trans haudit
  · have hanswer := hremoved (batch w.db ([.grantRemoval input.principalId] ++ scopeLockStatements input.app input.scope)).2
    rw [batch_length, ← hresults] at hanswer
    exact hanswer

variable (dialect w) in
theorem deleteCreator_run (app principalId roleKey : String) (scope : Scope) (now : Nat) :
    (w.ran dialect (.deleteCreator app principalId roleKey scope now)).grants =
        (deleteCreatorChange app principalId roleKey scope now).kept w.db.grants ∧
      (w.ran dialect (.deleteCreator app principalId roleKey scope now)).audit = w.db.audit := by
  obtain ⟨hdb, -⟩ := batch_append w.db ([.grantRemoval principalId] ++ scopeLockStatements app scope)
    [.change (deleteCreatorChange app principalId roleKey scope now)]
  obtain ⟨hgrants, haudit⟩ := lock_run w.db app principalId scope
  refine ⟨(congrArg Database.grants hdb).trans ?_, (congrArg Database.audit hdb).trans ?_⟩
  · simp only [batch, exec, hgrants]
  · simp only [batch, exec, haudit]

/-! ## Runs -/

def Call.ids : Call ε → List Nat
  | .deleteCreator .. => []
  | .revoke input _ now id => List.range' id (input.deletes now).length

def Apart (a b : Call ε) : Prop := ∀ n ∈ a.ids, n ∉ b.ids

structure Inv (creatorRole : String → String → Option String) (w : World ε) : Prop where
  read : ∀ call ∈ w.calls, call.now ≤ w.clock
  declared : ∀ input audit now id, Call.revoke input audit now id ∈ w.calls →
    input.creatorRole = creatorRole input.app input.scope.type
  recorded : ∀ row ∈ w.db.audit, row.id < w.nextId
  drawn : ∀ call ∈ w.calls, ∀ n ∈ call.ids, n < w.nextId
  fresh : ∀ call ∈ w.calls, ∀ row ∈ w.db.audit, row.id ∉ call.ids
  apart : w.calls.Pairwise Apart

variable {creatorRole : String → String → Option String} {call : Call ε}

variable (dialect) in
/-- The audit rows a batch adds carry ids the call drew. -/
theorem ran_audit (hfresh : ∀ row ∈ w.db.audit, row.id ∉ call.ids) :
    ∃ records : List (AuditRow ε), (w.ran dialect call).audit = w.db.audit ++ records ∧ ∀ row ∈ records, row.id ∈ call.ids := by
  cases call with
  | deleteCreator app principalId roleKey scope now =>
    exact ⟨[], by rw [(deleteCreator_run dialect w app principalId roleKey scope now).2, List.append_nil], fun _ h => nomatch h⟩
  | revoke input audit now id =>
    exact ⟨_, (revoke_run dialect audit hfresh).2.1, (records_spec audit (input.deletes now) id w.db.grants).2.2⟩

theorem erased_apart {calls : List (Call ε)} {n : Nat} {c : Call ε} (h : calls.Pairwise Apart) (hcall : calls[n]? = some call)
    (hc : c ∈ calls.eraseIdx n) : Apart call c := by
  obtain ⟨hlt, rfl⟩ := List.getElem?_eq_some_iff.mp hcall
  have hsplit : calls.take n ++ calls[n] :: calls.drop (n + 1) = calls := by
    rw [← List.drop_eq_getElem_cons hlt, List.take_append_drop]
  rw [← hsplit, List.pairwise_append, List.pairwise_cons] at h
  rw [List.eraseIdx_eq_take_drop_succ] at hc
  rcases List.mem_append.mp hc with hc | hc
  · exact fun k hk hk' => h.2.2 c hc _ List.mem_cons_self k hk' hk
  · exact h.2.1.1 c hc

theorem inv_step (h : Inv creatorRole w) (event : Event ε) : Inv creatorRole (w.step dialect creatorRole event) := by
  cases event with
  | tick seconds =>
    refine ⟨fun call hcall => ?_, h.declared, h.recorded, h.drawn, h.fresh, h.apart⟩
    have := h.read call hcall
    show call.now ≤ w.clock + seconds
    omega
  | deleteCreator app principalId roleKey scope =>
    refine ⟨?_, ?_, h.recorded, ?_, ?_, ?_⟩
    · intro call hcall
      rcases List.mem_append.mp hcall with hcall | hcall
      · exact h.read call hcall
      · rw [List.mem_singleton.mp hcall]
        exact Nat.le_refl _
    · intro input audit now id hcall
      rcases List.mem_append.mp hcall with hcall | hcall
      · exact h.declared input audit now id hcall
      · cases List.mem_singleton.mp hcall
    · intro call hcall
      rcases List.mem_append.mp hcall with hcall | hcall
      · exact h.drawn call hcall
      · rw [List.mem_singleton.mp hcall]
        exact fun _ hn => nomatch hn
    · intro call hcall
      rcases List.mem_append.mp hcall with hcall | hcall
      · exact h.fresh call hcall
      · rw [List.mem_singleton.mp hcall]
        exact fun _ _ hn => nomatch hn
    · refine List.pairwise_append.mpr ⟨h.apart, List.pairwise_singleton _ _, ?_⟩
      intro a _ b hb n _ hn
      rw [List.mem_singleton.mp hb] at hn
      cases hn
  | revoke app principalId scope roles audit =>
    have hnew : ∀ n ∈ (Call.revoke ⟨app, principalId, scope, roles, creatorRole app scope.type⟩ audit w.clock w.nextId).ids,
        w.nextId ≤ n ∧ n < w.nextId +
          ((⟨app, principalId, scope, roles, creatorRole app scope.type⟩ : RevokeInput).deletes w.clock).length := by
      intro n hn
      exact List.mem_range'_1.mp hn
    refine ⟨?_, ?_, ?_, ?_, ?_, ?_⟩
    · intro call hcall
      rcases List.mem_append.mp hcall with hcall | hcall
      · exact h.read call hcall
      · rw [List.mem_singleton.mp hcall]
        exact Nat.le_refl _
    · intro input audit' now id hcall
      rcases List.mem_append.mp hcall with hcall | hcall
      · exact h.declared input audit' now id hcall
      · cases List.mem_singleton.mp hcall
        rfl
    · intro row hrow
      exact Nat.lt_of_lt_of_le (h.recorded row hrow) (Nat.le_add_right _ _)
    · intro call hcall n hn
      rcases List.mem_append.mp hcall with hcall | hcall
      · exact Nat.lt_of_lt_of_le (h.drawn call hcall n hn) (Nat.le_add_right _ _)
      · rw [List.mem_singleton.mp hcall] at hn
        exact (hnew n hn).2
    · intro call hcall row hrow hn
      rcases List.mem_append.mp hcall with hcall | hcall
      · exact h.fresh call hcall row hrow hn
      · rw [List.mem_singleton.mp hcall] at hn
        have := (hnew _ hn).1
        have := h.recorded row hrow
        omega
    · refine List.pairwise_append.mpr ⟨h.apart, List.pairwise_singleton _ _, ?_⟩
      intro a ha b hb n hn hn'
      rw [List.mem_singleton.mp hb] at hn'
      have := (hnew _ hn').1
      have := h.drawn a ha n hn
      omega
  | runs n =>
    simp only [World.step]
    split
    · exact h
    next call hcall =>
    have hmem := List.mem_of_getElem? hcall
    obtain ⟨records, haudit, hids⟩ := ran_audit dialect (h.fresh call hmem)
    have hrow : ∀ row ∈ (w.ran dialect call).audit, row ∈ w.db.audit ∨ row.id ∈ call.ids := by
      intro row hrow
      rw [haudit] at hrow
      rcases List.mem_append.mp hrow with hrow | hrow
      · exact .inl hrow
      · exact .inr (hids row hrow)
    refine ⟨fun c hc => h.read c (List.mem_of_mem_eraseIdx hc),
      fun i a m d hc => h.declared i a m d (List.mem_of_mem_eraseIdx hc), ?_,
      fun c hc => h.drawn c (List.mem_of_mem_eraseIdx hc), ?_, h.apart.sublist (List.eraseIdx_sublist _ _)⟩
    · intro row hr
      rcases hrow row hr with hr | hr
      · exact h.recorded row hr
      · exact h.drawn call hmem _ hr
    · intro c hc row hr hn
      rcases hrow row hr with hr | hr
      · exact h.fresh c (List.mem_of_mem_eraseIdx hc) row hr hn
      · exact erased_apart h.apart hcall hc _ hr hn
  | give g late => exact ⟨h.read, h.declared, h.recorded, h.drawn, h.fresh, h.apart⟩

theorem inv_after (h : Inv creatorRole w) (events : List (Event ε)) : Inv creatorRole (w.after dialect creatorRole events) := by
  induction events generalizing w with
  | nil => exact h
  | cons event rest ih => exact ih (inv_step h event)

theorem inv_start (creatorRole : String → String → Option String) (grants : Grants) (clock : Nat) :
    Inv creatorRole (World.start grants clock : World ε) where
  read _ h := nomatch h
  declared _ _ _ _ h := nomatch h
  recorded _ h := nomatch h
  drawn _ h := nomatch h
  fresh _ h := nomatch h
  apart := .nil

/-! ## The last creator -/

/-- The member holds the role in the scope at the time. -/
def MemberHolds (rows : List Grant) (app principalId role : String) (scope : Scope) (time : Nat) : Prop :=
  ∃ g ∈ rows, g.isOf app role scope = true ∧ g.principalId = principalId ∧ g.active time = true

/-- Where the member holds the role and another principal held it at the clock reading, another one holds it now. -/
def StillAnother (rows : List Grant) (app principalId role : String) (scope : Scope) (read clock : Nat) : Prop :=
  MemberHolds rows app principalId role scope clock → AnotherHolds rows app principalId role scope read →
    AnotherHolds rows app principalId role scope clock

/-- For the creator role a call names. -/
def Timely (creatorRole : String → String → Option String) (w : World ε) : Call ε → Prop
  | .deleteCreator app principalId role scope now =>
    creatorRole app scope.type = some role → StillAnother w.db.grants.rows app principalId role scope now w.clock
  | .revoke input _ now _ => ∀ creator, input.creator = some creator →
    StillAnother w.db.grants.rows input.app input.principalId creator input.scope now w.clock

/-- What running the call's batch does. -/
structure Spares (dialect : Dialect) (creatorRole : String → String → Option String) (w : World ε) (call : Call ε) : Prop where
  /-- A value that had a creator has one. -/
  creator : ∀ app scope role, creatorRole app scope.type = some role → Holds w.db.grants.rows app role scope w.clock →
    Holds (w.ran dialect call).grants.rows app role scope w.clock
  /-- A member whose creator role is named, held and not removed keeps every role. -/
  refused : ∀ input audit now id role, call = .revoke input audit now id → input.creator = some role →
    MemberHolds w.db.grants.rows input.app input.principalId role input.scope w.clock → role ∉ w.answer dialect call →
    ∀ g ∈ w.db.grants.rows, g ∈ (w.ran dialect call).grants.rows
  /-- The answer lists the roles whose grants went, each once and with one audit row. -/
  answered : ∀ input audit now id, call = .revoke input audit now id →
    (∀ role, role ∈ w.answer dialect call ↔
      ∃ g ∈ w.db.grants.rows, g ∉ (w.ran dialect call).grants.rows ∧ g.roleKey = some role) ∧
    (w.answer dialect call).Nodup ∧
    ∃ records : List (AuditRow ε), (w.ran dialect call).audit = w.db.audit ++ records ∧
      records.map (·.event) = (w.answer dialect call).map audit ∧ (records.map (·.id)).Nodup ∧
      ∀ row ∈ records, ∀ row' ∈ w.db.audit, row.id ≠ row'.id

variable {clock : Nat}

/-- The creator's DELETE alone keeps a holder exactly where another one is left. -/
theorem deleteCreator_holds {now : Nat} :
    (Holds grants.rows app role scope clock →
      Holds ((deleteCreatorChange app principalId role scope now).kept grants).rows app role scope clock) ↔
    StillAnother grants.rows app principalId role scope now clock := by
  constructor
  · rintro hkeeps ⟨g, hg, hof, hmember, hactive⟩ hanother
    obtain ⟨g', hg', hof', hactive'⟩ := hkeeps ⟨g, hg, hof, hactive⟩
    obtain ⟨hrow, hkept⟩ := (mem_kept).mp hg'
    refine ⟨g', hrow, hof', fun hprincipal => ?_, hactive'⟩
    obtain ⟨happ, hrole, hscope⟩ := (isOf_iff).mp hof'
    rw [matched_of happ hrole hscope hprincipal, (met_another).mpr hanother] at hkept
    cases hkept
  · rintro htimely ⟨g, hg, hof, hactive⟩
    have hother : ∀ g ∈ grants.rows, g.principalId ≠ principalId →
        g ∈ ((deleteCreatorChange app principalId role scope now).kept grants).rows := by
      intro g hg hne
      refine (mem_kept).mpr ⟨hg, ?_⟩
      by_contra hmatched
      exact hne (matched_isOf (by simpa using hmatched)).2.2.2.1
    by_cases hmember : g.principalId = principalId
    · by_cases hanother : AnotherHolds grants.rows app principalId role scope now
      · obtain ⟨g', hg', hof', hne, hactive'⟩ := htimely ⟨g, hg, hof, hmember, hactive⟩ hanother
        exact ⟨g', hother g' hg' hne, hof', hactive'⟩
      · refine ⟨g, (mem_kept).mpr ⟨hg, ?_⟩, hof, hactive⟩
        by_contra hmatched
        exact hanother ((met_another).mp (matched_isOf (by simpa using hmatched)).2.2.2.2)
    · exact ⟨g, hother g hg hmember, hof, hactive⟩

/-- The whole batch keeps a holder of the creator role it names exactly where its first DELETE does. -/
theorem revocation_holds_iff {input : RevokeInput} {now : Nat} (hcreator : input.creator = some creator) :
    (Holds grants.rows input.app creator input.scope clock →
      Holds (outcome audit id grants (input.deletes now)).grants.rows input.app creator input.scope clock) ↔
    StillAnother grants.rows input.app input.principalId creator input.scope now clock := by
  rw [← deleteCreator_holds, deletes_creator hcreator, outcome_cons]
  refine imp_congr_right (fun _ => ⟨?_, ?_⟩)
  · rintro ⟨g, hg, hof, hactive⟩
    exact ⟨g, outcome_subset audit _ (id + 1) _ hg, hof, hactive⟩
  · rintro ⟨g, hg, hof, hactive⟩
    refine ⟨g, role_keeps hg ((isOf_iff).mp hof).2.1 ?_, hof, hactive⟩
    intro d hd e
    obtain ⟨role, hrole, rfl⟩ := List.mem_map.mp hd
    simp [show role = creator from e] at hrole

variable (audit id) in
/-- A value the DELETEs are not about, or a role they do not name. -/
theorem outcome_elsewhere {app principalId app' role : String} {scope' : Scope}
    (hmember : OfMember app principalId scope deletes) (helse : app' = app → scope' = scope → ∀ d ∈ deletes, d.roleKey ≠ role)
    (hholds : Holds grants.rows app' role scope' clock) :
    Holds (outcome audit id grants deletes).grants.rows app' role scope' clock := by
  obtain ⟨g, hg, hof, hactive⟩ := hholds
  obtain ⟨happ, hrole, hscope⟩ := (isOf_iff).mp hof
  refine ⟨g, outcome_keeps (fun d hd rows => ?_) hg, hof, hactive⟩
  by_contra hmatched
  obtain ⟨happ', hrole', hscope', -⟩ := matched_isOf (by simpa using hmatched)
  obtain ⟨hd1, -, hd3⟩ := hmember d hd
  refine helse ?_ ?_ d hd (Option.some.inj (hrole'.symm.trans hrole))
  · exact (Option.some.inj (happ.symm.trans happ')).trans hd1
  · exact (Option.some.inj (hscope.symm.trans hscope')).trans hd3

theorem revoke_refused {input : RevokeInput} {now : Nat} (hread : now ≤ w.clock) (hcreator : input.creator = some role)
    (hfresh : ∀ row ∈ w.db.audit, row.id ∉ List.range' id (input.deletes now).length)
    (hheld : MemberHolds w.db.grants.rows input.app input.principalId role input.scope w.clock)
    (hanswer : role ∉ w.answer dialect (.revoke input audit now id)) (hg : g ∈ w.db.grants.rows) :
    g ∈ (w.ran dialect (.revoke input audit now id)).grants.rows := by
  obtain ⟨hgrants, -, hremoved⟩ := revoke_run dialect audit hfresh
  obtain ⟨held, hmem, hof, hmember, hactive⟩ := hheld
  rw [hremoved, mem_removed] at hanswer
  have hstays : held ∈ (outcome audit id w.db.grants (input.deletes now)).grants.rows := by
    by_contra hgone
    exact hanswer ⟨held, hmem, hgone, ((isOf_iff).mp hof).2.1⟩
  rw [hgrants]
  exact revocation_all_or_nothing hcreator hof hmember (active_earlier hread hactive) hstays hg

theorem revoke_answered {input : RevokeInput} {now : Nat}
    (hfresh : ∀ row ∈ w.db.audit, row.id ∉ List.range' id (input.deletes now).length) :
    (∀ role, role ∈ w.answer dialect (.revoke input audit now id) ↔
      ∃ g ∈ w.db.grants.rows, g ∉ (w.ran dialect (.revoke input audit now id)).grants.rows ∧ g.roleKey = some role) ∧
    (w.answer dialect (.revoke input audit now id)).Nodup ∧
    ∃ records : List (AuditRow ε), (w.ran dialect (.revoke input audit now id)).audit = w.db.audit ++ records ∧
      records.map (·.event) = (w.answer dialect (.revoke input audit now id)).map audit ∧ (records.map (·.id)).Nodup ∧
      ∀ row ∈ records, ∀ row' ∈ w.db.audit, row.id ≠ row'.id := by
  obtain ⟨hgrants, haudit, hremoved⟩ := revoke_run dialect audit hfresh
  obtain ⟨hevents, hids, hrange⟩ := records_spec audit (input.deletes now) id w.db.grants
  rw [hgrants, hremoved, haudit]
  refine ⟨fun role => mem_removed, removed_nodup (deletes_ofMember input now), _, rfl, hevents, hids.imp Nat.ne_of_lt, ?_⟩
  exact fun row hrow row' hrow' e => hfresh row' hrow' (e ▸ hrange row hrow)

theorem revocation_spares_iff (dialect : Dialect) (creatorRole : String → String → Option String) (grants : Grants) (clock : Nat)
    (events : List (Event ε)) (n : Nat) (call : Call ε)
    (hcall : ((World.start grants clock).after dialect creatorRole events).calls[n]? = some call) :
    Spares dialect creatorRole ((World.start grants clock).after dialect creatorRole events) call ↔
      Timely creatorRole ((World.start grants clock).after dialect creatorRole events) call := by
  have hinv : Inv creatorRole ((World.start grants clock).after dialect creatorRole events) :=
    inv_after (inv_start creatorRole grants clock) events
  generalize (World.start grants clock).after dialect creatorRole events = w at hinv hcall
  have hmem := List.mem_of_getElem? hcall
  cases call with
  | deleteCreator app principalId role scope now =>
    have hgrants := (deleteCreator_run dialect w app principalId role scope now).1
    constructor
    · intro h hdeclared
      have hkeeps := h.creator app scope role hdeclared
      rw [hgrants] at hkeeps
      exact (deleteCreator_holds).mp hkeeps
    · intro htimely
      refine ⟨?_, (fun _ _ _ _ _ e => nomatch e), (fun _ _ _ _ e => nomatch e)⟩
      intro app' scope' role' hdeclared hholds
      rw [hgrants]
      by_cases hhere : app' = app ∧ scope' = scope ∧ role' = role
      · obtain ⟨rfl, rfl, rfl⟩ := hhere
        exact (deleteCreator_holds).mpr (htimely hdeclared) hholds
      · have hmember : OfMember app principalId scope [deleteCreatorChange app principalId role scope now] := by
          intro d hd
          rw [List.mem_singleton.mp hd]
          exact ⟨rfl, rfl, rfl⟩
        refine outcome_elsewhere (fun _ => ()) 0 hmember (fun happ hscope d hd e => hhere ⟨happ, hscope, ?_⟩) hholds
        rw [List.mem_singleton.mp hd] at e
        exact e.symm
  | revoke input audit now id =>
    have hfresh := hinv.fresh _ hmem
    have hdeclared := hinv.declared input audit now id hmem
    have hgrants := (revoke_run dialect audit hfresh).1
    constructor
    · intro h creator hcreator
      have hkeeps := h.creator input.app input.scope creator (hdeclared ▸ (creator_some hcreator).1)
      rw [hgrants] at hkeeps
      exact (revocation_holds_iff hcreator).mp hkeeps
    · intro htimely
      refine ⟨?_, ?_, ?_⟩
      · intro app scope role hrole hholds
        rw [hgrants]
        by_cases hhere : app = input.app ∧ scope = input.scope ∧ role ∈ input.roles
        · obtain ⟨rfl, rfl, hnamed⟩ := hhere
          have hcreator : input.creator = some role := by simp [RevokeInput.creator, hdeclared, hrole, hnamed]
          exact (revocation_holds_iff hcreator).mpr (htimely role hcreator) hholds
        · refine outcome_elsewhere audit id (deletes_ofMember input now) (fun happ hscope d hd e =>
            hhere ⟨happ, hscope, ?_⟩) hholds
          exact e ▸ deletes_named hd
      · intro input' audit' now' id' role e hcreator hheld hanswer g hg
        cases e
        exact revoke_refused (hinv.read _ hmem) hcreator hfresh hheld hanswer hg
      · intro input' audit' now' id' e
        cases e
        exact revoke_answered hfresh

/-! ## Two owners of one company -/

def company : Scope := ⟨"company", "1"⟩

/-- Ann's grant has no end; Bea's ends at 10. -/
def owners : Grants where
  rows := [⟨"ann", some "shop", some "owner", some company, none⟩, ⟨"bea", some "shop", some "owner", some company, some 10⟩]
  unique := by simp [Distinct, Grant.key]

def declaredOwner (_app type : String) : Option String := if type = "company" then some "owner" else none

/-- Ann's role is revoked at 9. -/
def revokesAnn : Event String := .revoke "shop" "ann" company ["owner"] (fun role => role)

def revokingAnn : Call String := .revoke ⟨"shop", "ann", company, ["owner"], some "owner"⟩ (fun role => role) 9 0

theorem a_batch_run_at_once_spares_an_owner :
    Spares .sqlite declaredOwner ((World.start owners 9).after .sqlite declaredOwner [revokesAnn]) revokingAnn :=
  (revocation_spares_iff .sqlite declaredOwner owners 9 [revokesAnn] 0 revokingAnn rfl).mpr (fun _ _ _ hanother => hanother)

/-- The batch runs at 11: Bea held the role when the clock was read, and nobody holds it behind the batch. -/
theorem a_late_batch_removes_the_last_owner :
    ((World.start owners 9).after .sqlite declaredOwner [revokesAnn, .tick 2]).calls[0]? = some revokingAnn ∧
      ¬Spares .sqlite declaredOwner ((World.start owners 9).after .sqlite declaredOwner [revokesAnn, .tick 2]) revokingAnn := by
  refine ⟨rfl, fun h => ?_⟩
  have hafter : (((World.start owners 9).after .sqlite declaredOwner [revokesAnn, .tick 2]).ran .sqlite revokingAnn).grants.rows =
      [⟨"bea", some "shop", some "owner", some company, some 10⟩] := by
    decide
  obtain ⟨g, hg, -, hactive⟩ := h.creator "shop" company "owner" rfl ⟨_, List.mem_cons_self, by decide, by decide⟩
  rw [hafter] at hg
  rw [List.mem_singleton.mp hg] at hactive
  exact absurd hactive (by decide)

end Fabrika.Iam.MemberRoles
