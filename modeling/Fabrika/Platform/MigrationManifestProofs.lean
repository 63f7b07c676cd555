/-
  Fabrika.Platform.MigrationManifestProofs — the manifest of a migration set lists what the set
  leaves in the catalog.

  A statement keeps `Tracks` where the manifest's texts tell its objects apart (`Safe`): the table a
  name begins with is the table the object is on, a view that is renamed or dropped has nothing
  attached to it, and a routine is renamed to a name no routine has. From statement to statement
  that is the whole run's (`manifest_lists_what_exists`); without it the manifest loses what exists
  (`the_manifest_loses_what_exists`).
-/

import Fabrika.Platform.ManifestTracks

namespace Fabrika.Platform.Migrations

/-! ## Where the manifest's texts tell its objects apart -/

section
variable (signature : List Char → List Char)

/-- A table's text begins only the names of what is on it. -/
def BeginsOwn (entities : List Entity) (table : Name) : Prop :=
  ∀ kind other name, .attached kind other name ∈ entities → dotted table [] <+: dotted other name → other = table

/-- The text of an object on a table is that of no object on another table. -/
def TextOwn (entities : List Entity) (kind : OnTableKind) (table own : Name) : Prop :=
  ∀ other name, .attached kind other name ∈ entities → dotted other name = dotted table own → other = table

def SafeDropName (c : Catalog) (what : Droppable) (target : DropName) : Prop :=
  match what with
  | .table => BeginsOwn c.live target.object.name
  | .view _ => ∀ kind name, .attached kind target.object.name name ∉ c.live
  | .routine _ => ∀ kind args, .routine kind target.object.name args ∈ c.live → ∀ a ∈ target.args, signature a = signature args

def SafeDrop (what : Droppable) (ifExists : Bool) : Catalog → List DropName → Prop
  | _, [] => True
  | c, target :: targets => SafeDropName signature c what target
      ∧ ∀ c', executeDropName signature c what ifExists target = some c' → SafeDrop what ifExists c' targets

/-- The statements the manifest follows: the table a text begins with is the object's own, a view that
    is renamed or dropped has nothing attached to it and is named as one, a routine is dropped by its
    own signature and renamed to a name no routine has. -/
def Safe (c : Catalog) : Statement → Prop
  | .renameTable table new _ =>
    BeginsOwn (c.live ++ c.stale) table.name ∧ (∀ kind, .relation (.view kind) table.name ∉ c.live)
      ∧ ∀ kind name, .attached kind table.name name ∈ c.live ++ c.stale → ¬dotted table.name [] <+: dotted new name
  | .renameView _ name _ _ => ∀ kind own, .attached kind name.name own ∉ c.live
  | .renameRoutine _ _ _ new => ∀ kind args, .routine kind new args ∉ c.live
  | .renameOnTable kind name table _ _ => '.' ∉ table.name ∧ TextOwn (c.live ++ c.stale) kind table.name name
  | .drop what names ifExists _ => SafeDrop signature what ifExists c names
  | .dropOnTable kind name table _ _ => TextOwn c.live kind table.name name
  | _ => True

/-- A run of statements, each of which the manifest follows. -/
inductive SafeRun : Catalog → List Statement → Catalog → Prop
  | nil (c : Catalog) : SafeRun c [] c
  | cons {c c' c'' : Catalog} {statement : Statement} {rest : List Statement} (dependents : List Entity)
      (hsafe : Safe signature c statement) (h : execute signature c statement = some c')
      (hcascade : statement.cascades = false → dependents = [])
      (hrest : SafeRun (c'.cascade dependents) rest c'') : SafeRun c (statement :: rest) c''

theorem SafeRun.runs {c c' : Catalog} {statements : List Statement} (h : SafeRun signature c statements c') :
    Runs signature c statements c' := by
  induction h with
  | nil c => exact .nil c
  | cons dependents _ h hcascade _ ih => exact .cons dependents h hcascade ih

end

/-! ## The changes of an accepted statement -/

/-- The changes of the `DROP` of one name. -/
def Droppable.changes (what : Droppable) (name : Name) : List ManifestChange :=
  match what with
  | .table => [.dropTable name]
  | .view kind => [.drop ⟨kind.object, name⟩]
  | .routine word => routineDrops word name

/-- The changes of a statement that is accepted. -/
def Statement.changes : Statement → List ManifestChange
  | .createTable .. => []
  | .createRoutine kind name args _ => [.createRoutine ⟨kind.object, name.name⟩ (argsText kind args)]
  | .createView kind name _ _ => [.create ⟨kind.object, name.name⟩]
  | .createOnTable kind name table _ => [.create ⟨kind.object, dotted table.name name⟩]
  | .renameTable table new _ => [.renameTable table.name new]
  | .renameView kind name new _ => [.rename ⟨kind.object, name.name⟩ ⟨kind.object, new⟩]
  | .renameRoutine word name _ new => routineRenames word name.name new
  | .renameOnTable kind name table new _ =>
    [.rename ⟨kind.object, dotted table.name name⟩ ⟨kind.object, dotted ((dotted table.name name).takeWhile (· ≠ '.')) new⟩]
  | .drop what names _ _ => names.flatMap fun target => what.changes target.object.name
  | .dropOnTable kind name table _ _ => [.drop ⟨kind.object, dotted table.name name⟩]
  | .other _ => []

variable {schema : Name} {statement : Statement}

theorem ownName_eq {object : ObjectName} {name : Name} (h : ownName schema object = some name) : name = object.name := by
  unfold ownName at h
  split at h
  · cases h
  · exact (Option.some.inj h).symm

theorem classifyStatement_eq {refuses : Statement → Bool} {changes : List ManifestChange}
    (h : classifyStatement schema refuses statement = some changes) : changes = statement.changes := by
  have hown : ∀ {object : ObjectName} {f : Name → List ManifestChange} {changes : List ManifestChange},
      (do let name ← ownName schema object; return f name) = some changes → changes = f object.name := by
    intro object f changes h
    obtain ⟨name, hname, heq⟩ := Option.bind_eq_some_iff.mp h
    rw [← ownName_eq hname]
    exact (Option.some.inj heq).symm
  unfold classifyStatement at h
  split at h
  · cases h
  · cases statement with
    | createTable name ifNotExists =>
      obtain ⟨_, _, heq⟩ := Option.map_eq_some_iff.mp h
      exact heq.symm
    | createRoutine kind name args replace => exact hown h
    | createView kind name replace ifNotExists => exact hown h
    | createOnTable kind name table replace => exact hown h
    | renameTable table new ifExists => exact hown h
    | renameView kind name new ifExists => exact hown h
    | renameRoutine word name args new => exact hown h
    | renameOnTable kind name table new ifExists => exact hown h
    | drop what names ifExists cascade =>
      dsimp only at h
      unfold classifyDrop at h
      split at h
      · cases h
      · next hforeign =>
        cases h
        unfold dropChanges Statement.changes
        refine List.flatMap_congr fun target htarget => ?_
        have hname : ownName schema target.object = some target.object.name := by
          unfold ownName
          refine if_neg fun hqualifier => hforeign ?_
          exact List.any_eq_true.mpr ⟨target.object, List.mem_map_of_mem htarget, hqualifier⟩
        unfold dropNameChanges
        rw [hname]
        cases what <;> rfl
    | dropOnTable kind name table ifExists cascade =>
      dsimp only at h
      unfold classifyDrop at h
      split at h
      · cases h
      · cases h
        rfl
    | other cascade =>
      cases h
      rfl

/-! ## Statement after statement -/

section
variable {signature : List Char → List Char} {c c' : Catalog} {objects : List DatabaseObject} {routines : Routines}

section
variable (h : Tracks c objects routines)
include h

theorem Tracks.replace {entity : Entity} (hmem : entity ∈ c.live) (hnot : ∀ kind name, entity ≠ .relation kind name) :
    Tracks ((c.dropOne entity).add entity) (Migrations.listed objects entity) routines := by
  have hlive : ∀ other, other ∈ ((c.dropOne entity).add entity).live ↔ other ∈ c.live := by
    intro other
    show other ∈ c.live.filter (· ≠ entity) ++ [entity] ↔ _
    rw [List.mem_append, List.mem_filter, List.mem_singleton, decide_eq_true_eq]
    constructor
    · rintro (hother | rfl)
      · exact hother.1
      · exact hmem
    · intro hother
      by_cases heq : other = entity
      · exact .inr heq
      · exact .inl ⟨hother, heq⟩
  refine ⟨fun other hother object hkey => ?_, fun object hobject => ?_, fun kind table name hattached => ?_,
    fun kind name args hroutine => ?_⟩
  · exact mem_listed.mpr (.inr (h.covers other ((hlive other).mp hother) object hkey))
  · obtain hkey | hobject := mem_listed.mp hobject
    · exact ⟨entity, .inl ((hlive entity).mpr hmem), hkey⟩
    · obtain ⟨other, hother, hkey⟩ := h.sound object hobject
      by_cases heq : other = entity
      · exact ⟨other, .inl ((hlive other).mpr (heq ▸ hmem)), hkey⟩
      · refine ⟨other, hother.imp (hlive other).mpr fun hstale => ?_, hkey⟩
        exact List.mem_filter.mpr ⟨List.mem_filter.mpr ⟨hstale, decide_eq_true heq⟩, decide_eq_true heq⟩
  · obtain ⟨relation, hrelation⟩ := hasRelation_iff.mp (h.stands kind table name ((hlive _).mp hattached))
    exact hasRelation_iff.mpr ⟨relation, (hlive _).mpr hrelation⟩
  · exact h.tracked kind name args ((hlive _).mp hroutine)

theorem Tracks.createRoutine {kind : RoutineKind} {name : ObjectName} {args : List Char} {replace : Bool}
    (hexec : executeCreate signature c (.createRoutine kind name args replace) = some c')
    (hsame : ∀ own, routines.get name.name = some own → own = argsText kind args) :
    Tracks c' (setObject objects ⟨kind.object, name.name⟩) (routines.set name.name (argsText kind args)) := by
  have hremembered := h.remember hsame
  unfold executeCreate at hexec
  dsimp only at hexec
  cases hfound : routinesOf signature c name.name (some args) with
  | nil =>
    rw [hfound] at hexec
    cases hexec
    refine hremembered.add (fun _ _ _ heq => nomatch heq) fun other own otherArgs heq => ?_
    cases heq
    rw [get_set, if_pos rfl]
  | cons first others =>
    obtain ⟨other, otherArgs⟩ := first
    rw [hfound] at hexec
    dsimp only at hexec
    split at hexec
    · next hreplace =>
      rw [Bool.and_eq_true, decide_eq_true_eq] at hreplace
      obtain ⟨-, rfl⟩ := hreplace
      cases hexec
      obtain ⟨hmem, -⟩ :=
        mem_routinesOf.mp (hfound ▸ List.mem_cons_self : (other, otherArgs) ∈ routinesOf signature c name.name (some args))
      obtain ⟨-, rfl⟩ := argsText_inj (hsame _ (h.tracked other name.name otherArgs hmem))
      exact hremembered.replace hmem (fun _ _ heq => nomatch heq)
    · cases hexec

/-- A create, which has no refusal for a second signature. -/
theorem Tracks.create (hexec : executeCreate signature c statement = some c')
    (haccepted : (statement.changes.foldl overloadStep (routines, [])).2 = []) :
    Tracks c' (statement.changes.foldl applyChange objects) (statement.changes.foldl overloadStep (routines, [])).1 := by
  cases statement with
  | createTable name ifNotExists =>
    unfold executeCreate at hexec
    dsimp only at hexec
    split at hexec
    · split at hexec
      · cases hexec
        exact h
      · cases hexec
    · cases hexec
      exact h.add (fun _ _ _ heq => nomatch heq) (fun _ _ _ heq => nomatch heq)
  | createView kind name replace ifNotExists =>
    unfold executeCreate at hexec
    dsimp only at hexec
    split at hexec
    · next hthere =>
      rw [Bool.and_eq_true, decide_eq_true_eq] at hthere
      cases hexec
      exact h.listed (.inl hthere.1)
    · split at hexec
      · split at hexec
        · cases hexec
          exact (h.addStale _).listed (.inr (List.mem_append_right _ (List.mem_singleton_self _)))
        · cases hexec
      · cases hexec
        exact h.add (fun _ _ _ heq => nomatch heq) (fun _ _ _ heq => nomatch heq)
  | createOnTable kind name table replace =>
    unfold executeCreate at hexec
    dsimp only at hexec
    split at hexec
    · cases hexec
    · next hstands =>
      rw [Bool.not_eq_true', Bool.not_eq_false] at hstands
      split at hexec
      · next hthere =>
        split at hexec
        · cases hexec
          exact h.listed (.inl hthere)
        · cases hexec
      · cases hexec
        refine h.add (fun _ _ _ heq => ?_) (fun _ _ _ heq => nomatch heq)
        cases heq
        exact hstands
  | createRoutine kind name args replace =>
    refine h.createRoutine hexec fun own hget => ?_
    simp only [Statement.changes, List.foldl_cons, List.foldl_nil, overloadStep, hget, List.nil_append] at haccepted
    split at haccepted
    · next heq => exact heq
    · cases haccepted
  | _ => cases hexec

theorem Tracks.rename (hexec : executeRename signature c statement = some c') (hsafe : Safe signature c statement) :
    Tracks c' (statement.changes.foldl applyChange objects) (statement.changes.foldl overloadStep (routines, [])).1 := by
  cases statement with
  | renameTable table new ifExists =>
    obtain ⟨hbegins, hview, hapart⟩ := hsafe
    have hrenamed := h.renameTable hbegins hapart hview
    unfold executeRename at hexec
    dsimp only at hexec
    split at hexec
    · split at hexec
      · cases hexec
      · cases hexec
        exact hrenamed
    · next habsent =>
      split at hexec
      · cases hexec
        rw [← h.moveRelation_absent (Bool.not_eq_true _ ▸ habsent)]
        exact hrenamed
      · cases hexec
  | renameView kind name new ifExists =>
    have hrenamed : Tracks (c.rename (Catalog.moveRelation (· = .view kind) name.name new))
        (applyChange objects (.rename ⟨kind.object, name.name⟩ ⟨kind.object, new⟩))
        (overloadStep (routines, []) (.rename ⟨kind.object, name.name⟩ ⟨kind.object, new⟩)).1 := by
      have hkept : Tracks (c.rename (Catalog.moveRelation (· = .view kind) name.name new))
          (applyChange objects (.rename ⟨kind.object, name.name⟩ ⟨kind.object, new⟩)) routines := h.renameView hsafe
      cases kind <;> exact hkept
    unfold executeRename at hexec
    dsimp only at hexec
    split at hexec
    · split at hexec
      · cases hexec
      · cases hexec
        exact hrenamed
    · split at hexec
      · next habsent =>
        rw [Bool.and_eq_true, Bool.not_eq_true'] at habsent
        cases hexec
        rw [← h.moveRelation_absent habsent.2]
        exact hrenamed
      · cases hexec
  | renameRoutine word name args new =>
    unfold executeRename at hexec
    dsimp only at hexec
    split at hexec
    · next kind own hfound =>
      split at hexec
      · next hkind =>
        rw [Bool.and_eq_true, decide_eq_true_eq] at hkind
        cases hexec
        obtain ⟨hmem, -⟩ := mem_routinesOf.mp (hfound ▸ List.mem_cons_self : (kind, own) ∈ routinesOf signature c name.name args)
        exact h.renameRoutine hmem hkind.1 hsafe []
      · cases hexec
    · cases hexec
  | renameOnTable kind name table new ifExists =>
    obtain ⟨hdot, hown⟩ := hsafe
    have hstart : (dotted table.name name).takeWhile (· ≠ '.') = table.name := by
      have hall : ∀ ch ∈ table.name, decide (ch ≠ '.') = true := fun ch hch => decide_eq_true fun heq => hdot (heq ▸ hch)
      rw [dotted, List.takeWhile_append_of_pos hall, List.takeWhile_cons_of_neg (by simp), List.append_nil]
    have hrenamed : Tracks (c.rename (Catalog.moveAttached kind table.name name new))
        ((Statement.renameOnTable kind name table new ifExists).changes.foldl applyChange objects)
        ((Statement.renameOnTable kind name table new ifExists).changes.foldl overloadStep (routines, [])).1 := by
      have hkept : Tracks (c.rename (Catalog.moveAttached kind table.name name new))
          (applyChange objects (.rename ⟨kind.object, dotted table.name name⟩ ⟨kind.object, dotted table.name new⟩)) routines :=
        h.renameOnTable hown
      rw [Statement.changes, hstart]
      cases kind <;> exact hkept
    unfold executeRename at hexec
    dsimp only at hexec
    split at hexec
    · split at hexec
      · cases hexec
      · cases hexec
        exact hrenamed
    · next habsent =>
      split at hexec
      · cases hexec
        have hmove : ∀ entity ∈ c.live, Catalog.moveAttached kind table.name name new entity = entity := fun entity hmem =>
          moveAttached_of_ne fun heq => habsent (heq ▸ hmem)
        rw [← rename_eq hmove]
        exact hrenamed
      · cases hexec
  | _ => cases hexec

theorem Tracks.dropName {what : Droppable} {ifExists : Bool} {target : DropName}
    (hexec : executeDropName signature c what ifExists target = some c') (hsafe : SafeDropName signature c what target)
    (refused : List MigrationRefusal) :
    Tracks c' ((what.changes target.object.name).foldl applyChange objects)
      ((what.changes target.object.name).foldl overloadStep (routines, refused)).1 := by
  unfold executeDropName at hexec
  cases what with
  | table =>
    dsimp only at hexec
    split at hexec
    · cases hexec
      exact h.dropTable hsafe
    · split at hexec
      · next habsent =>
        rw [Bool.and_eq_true, Bool.not_eq_true'] at habsent
        cases hexec
        exact h.dropTable_absent habsent.2 hsafe
      · cases hexec
  | view kind =>
    have hroutines : ((Droppable.view kind).changes target.object.name).foldl overloadStep (routines, refused) =
        (routines, refused) := by
      cases kind <;> rfl
    rw [hroutines]
    dsimp only at hexec
    split at hexec
    · cases hexec
      exact h.dropView hsafe
    · split at hexec
      · next habsent =>
        rw [Bool.and_eq_true, Bool.not_eq_true'] at habsent
        cases hexec
        refine h.deleteObject_absent fun entity hmem hkey => ?_
        obtain rfl := key_view hkey
        have hthere := hasRelation_iff.mpr ⟨_, hmem⟩
        rw [habsent.2] at hthere
        cases hthere
      · cases hexec
  | routine word =>
    dsimp only at hexec
    split at hexec
    · next hnone =>
      split at hexec
      · cases hexec
        refine h.routineDrops word (fun kind args hmem => ?_) refused
        have hfound : (kind, args) ∈ routinesOf signature c target.object.name target.args :=
          mem_routinesOf.mpr ⟨hmem, hsafe kind args hmem⟩
        rw [hnone] at hfound
        cases hfound
      · cases hexec
    · next kind args hfound =>
      split at hexec
      · next hkind =>
        cases hexec
        obtain ⟨hmem, -⟩ :=
          mem_routinesOf.mp (hfound ▸ List.mem_cons_self : (kind, args) ∈ routinesOf signature c target.object.name target.args)
        exact h.dropRoutine hmem hkind refused
      · cases hexec
    · cases hexec

theorem Tracks.dropNames {what : Droppable} {ifExists : Bool} {names : List DropName}
    (hexec : names.foldlM (fun c => executeDropName signature c what ifExists) c = some c')
    (hsafe : SafeDrop signature what ifExists c names) (refused : List MigrationRefusal) :
    Tracks c' ((names.flatMap fun target => what.changes target.object.name).foldl applyChange objects)
      ((names.flatMap fun target => what.changes target.object.name).foldl overloadStep (routines, refused)).1 := by
  induction names generalizing c objects routines refused with
  | nil =>
    cases hexec
    exact h
  | cons target names ih =>
    obtain ⟨hone, hothers⟩ := hsafe
    rw [List.foldlM_cons] at hexec
    obtain ⟨between, hfirst, hrest⟩ := Option.bind_eq_some_iff.mp hexec
    rw [List.flatMap_cons, List.foldl_append, List.foldl_append]
    exact ih (h.dropName hfirst hone refused) hrest (hothers between hfirst) _

end

/-- A statement that is accepted and that the manifest follows. -/
theorem Tracks.step (h : Tracks c objects routines) {statement : Statement} (hexec : execute signature c statement = some c')
    (hsafe : Safe signature c statement) (haccepted : (statement.changes.foldl overloadStep (routines, [])).2 = []) :
    Tracks c' (statement.changes.foldl applyChange objects) (statement.changes.foldl overloadStep (routines, [])).1 := by
  cases statement with
  | createTable name ifNotExists =>
    have hcreate : executeCreate signature c (.createTable name ifNotExists) = some c' := hexec
    exact h.create hcreate haccepted
  | createRoutine kind name args replace =>
    have hcreate : executeCreate signature c (.createRoutine kind name args replace) = some c' := hexec
    exact h.create hcreate haccepted
  | createView kind name replace ifNotExists =>
    have hcreate : executeCreate signature c (.createView kind name replace ifNotExists) = some c' := hexec
    exact h.create hcreate haccepted
  | createOnTable kind name table replace =>
    have hcreate : executeCreate signature c (.createOnTable kind name table replace) = some c' := hexec
    exact h.create hcreate haccepted
  | renameTable table new ifExists => exact h.rename hexec hsafe
  | renameView kind name new ifExists => exact h.rename hexec hsafe
  | renameRoutine word name args new => exact h.rename hexec hsafe
  | renameOnTable kind name table new ifExists => exact h.rename hexec hsafe
  | drop what names ifExists cascade => exact h.dropNames hexec hsafe []
  | dropOnTable kind name table ifExists cascade =>
    have hroutines : (Statement.dropOnTable kind name table ifExists cascade).changes.foldl overloadStep (routines, []) =
        (routines, []) := by
      cases kind <;> rfl
    have honly : ∀ other ∈ c.live, other.key = some ⟨kind.object, dotted table.name name⟩ →
        other = .attached kind table.name name := by
      intro other hmem hkey
      obtain ⟨relation, own, rfl, htext⟩ := key_attached hkey
      obtain rfl := hsafe relation own hmem htext
      rw [List.tail_eq_of_cons_eq (List.append_cancel_left htext)]
    rw [hroutines]
    unfold execute at hexec
    dsimp only at hexec
    split at hexec
    · cases hexec
      exact h.dropOne rfl (fun _ _ heq => nomatch heq) honly
    · next habsent =>
      split at hexec
      · cases hexec
        refine h.deleteObject_absent fun entity hmem hkey => habsent ?_
        rw [← honly entity hmem hkey]
        exact hmem
      · cases hexec
  | other cascade =>
    cases hexec
    exact h

/-! ## A run -/

theorem overloads_accumulate (changes : List ManifestChange) (routines : Routines) (refused : List MigrationRefusal) :
    changes.foldl overloadStep (routines, refused)
      = ((changes.foldl overloadStep (routines, [])).1, refused ++ (changes.foldl overloadStep (routines, [])).2) := by
  have hstep : ∀ (routines : Routines) (refused : List MigrationRefusal) (change : ManifestChange),
      overloadStep (routines, refused) change = ((overloadStep (routines, []) change).1, refused ++
        (overloadStep (routines, []) change).2) := by
    intro routines refused change
    cases change with
    | createRoutine object args => rfl
    | drop object => simp [overloadStep]
    | rename old new =>
      unfold overloadStep
      dsimp only
      split
      · split <;> simp
      · simp
    | create object => simp [overloadStep]
    | dropTable table => simp [overloadStep]
    | renameTable old new => simp [overloadStep]
  induction changes generalizing routines refused with
  | nil => simp
  | cons change changes ih =>
    rw [List.foldl_cons, List.foldl_cons, hstep, ih, ih _ (overloadStep (routines, []) change).2, List.append_assoc]

/-- A run whose statements have no refusal, each of which the manifest follows. -/
theorem SafeRun.tracks {statements : List Statement} (hrun : SafeRun signature c statements c') (h : Tracks c objects routines)
    (haccepted : ((statements.flatMap Statement.changes).foldl overloadStep (routines, [])).2 = []) :
    Tracks c' ((statements.flatMap Statement.changes).foldl applyChange objects)
      ((statements.flatMap Statement.changes).foldl overloadStep (routines, [])).1 := by
  induction hrun generalizing objects routines with
  | nil c => exact h
  | @cons c c₁ c₂ statement rest dependents hsafe hexec hcascade hrest ih =>
    rw [List.flatMap_cons, List.foldl_append, overloads_accumulate, List.append_eq_nil_iff] at haccepted
    rw [List.flatMap_cons, List.foldl_append, List.foldl_append, overloads_accumulate]
    exact ih ((h.step hexec hsafe haccepted.1).cascade dependents) haccepted.2

theorem changes_refuseOverloadsFrom (routines : Routines) (files : List MigrationClassification) :
    (refuseOverloadsFrom routines files).map (·.changes) = files.map (·.changes) := by
  induction files generalizing routines with
  | nil => rfl
  | cons file files ih =>
    rw [refuseOverloadsFrom]
    dsimp only
    rw [List.map_cons, List.map_cons, ih]

/-- Where no file has a refusal, no statement is refused and no signature is a second one. -/
theorem accepted_refuseOverloadsFrom {files : List MigrationClassification}
    (h : ∀ file ∈ refuseOverloadsFrom routines files, file.refused = []) :
    (∀ file ∈ files, file.refused = []) ∧ ((files.flatMap (·.changes)).foldl overloadStep (routines, [])).2 = [] := by
  induction files generalizing routines with
  | nil => exact ⟨fun _ h => (nomatch h), rfl⟩
  | cons file files ih =>
    rw [refuseOverloadsFrom, overloads_accumulate] at h
    dsimp only at h
    obtain ⟨hfile, hnone⟩ := List.append_eq_nil_iff.mp (h _ List.mem_cons_self)
    obtain ⟨hfiles, hlater⟩ := ih fun other hother => h other (List.mem_cons_of_mem _ hother)
    refine ⟨fun other hother => ?_, ?_⟩
    · obtain rfl | hother := List.mem_cons.mp hother
      · exact hfile
      · exact hfiles other hother
    · rw [List.flatMap_cons, List.foldl_append, overloads_accumulate, hnone, hlater]
      rfl

theorem migrationManifest_eq (classifications : List MigrationClassification) :
    migrationManifest classifications = ((classifications.map (·.changes)).flatten).foldl applyChange [] := by
  have hfold : ∀ (classifications : List MigrationClassification) (objects : List DatabaseObject),
      classifications.foldl (fun objects classification => classification.changes.foldl applyChange objects) objects
        = ((classifications.map (·.changes)).flatten).foldl applyChange objects := by
    intro classifications
    induction classifications with
    | nil => exact fun _ => rfl
    | cons classification classifications ih =>
      intro objects
      rw [List.foldl_cons, ih, List.map_cons, List.flatten_cons, List.foldl_append]
  exact hfold classifications []

theorem changes_classifyMigration {refuses : Statement → Bool} {file : List Statement}
    (h : (classifyMigration schema refuses file).refused = []) :
    (classifyMigration schema refuses file).changes = file.flatMap Statement.changes := by
  refine List.flatMap_congr fun statement hmem => ?_
  have hnone := List.map_eq_nil_iff.mp h
  cases hclass : classifyStatement schema refuses statement with
  | none => exact absurd (List.filter_eq_nil_iff.mp hnone statement hmem) (by rw [hclass]; simp)
  | some changes =>
    rw [Option.getD_some]
    exact classifyStatement_eq hclass

/-- After a migration set that is accepted and whose statements the manifest follows, what exists is
    listed under its name, what is listed and does not exist went by a `CASCADE` or was never made,
    and no two routines share a name. -/
theorem manifest_lists_what_exists (signature : List Char → List Char) (schema : Name) (refuses : Statement → Bool)
    (files : List (List Statement))
    (c : Catalog) (haccepted : ∀ file ∈ (classifyMigrations schema refuses files).files, file.refused = [])
    (hrun : SafeRun signature .empty files.flatten c) :
    (∀ entity ∈ c.live, ∀ object, entity.key = some object → object ∈ (classifyMigrations schema refuses files).objects)
      ∧ (∀ object ∈ (classifyMigrations schema refuses files).objects, ∃ entity, (entity ∈ c.live ∨ entity ∈ c.stale) ∧
        entity.key = some object)
      ∧ ∀ kind kind' name args args', .routine kind name args ∈ c.live → .routine kind' name args' ∈ c.live → kind = kind' ∧
      args = args' := by
  obtain ⟨hfiles, hoverloads⟩ := accepted_refuseOverloadsFrom haccepted
  have hchanges : (files.map (classifyMigration schema refuses)).flatMap (·.changes) =
      files.flatten.flatMap Statement.changes := by
    have hflatten : files.flatten.flatMap Statement.changes = files.flatMap fun file => file.flatMap Statement.changes := by
      rw [List.flatMap_def, List.map_flatten, List.flatten_flatten, List.map_map]
      rfl
    rw [hflatten, List.flatMap_map]
    exact List.flatMap_congr fun file hmem => changes_classifyMigration (hfiles _ (List.mem_map_of_mem hmem))
  have htracks := hrun.tracks tracks_empty (hchanges ▸ hoverloads)
  have hobjects : (classifyMigrations schema refuses files).objects =
      (files.flatten.flatMap Statement.changes).foldl applyChange [] := by
    unfold classifyMigrations
    dsimp only
    rw [migrationManifest_eq, refuseOverloads, changes_refuseOverloadsFrom, ← List.flatMap_def, hchanges]
  rw [hobjects]
  exact ⟨htracks.covers, htracks.sound, fun kind kind' name args args' hone hother => htracks.routine_unique hone hother⟩

end

/-! ## A run that is safe, and runs that are not -/

theorem cascade_nil (c : Catalog) : c.cascade [] = c := by
  have hlive : c.live.filter (!Catalog.takenWith [] ·) = c.live := List.filter_eq_self.mpr fun _ _ => rfl
  have hstale : c.live.filter (Catalog.takenWith [] ·) = [] := List.filter_eq_nil_iff.mpr fun _ _ h => nomatch h
  rw [Catalog.cascade, hlive, hstale, List.append_nil]

/-- Statements run as they are, without a `CASCADE`. -/
theorem Runs.of_foldlM {signature : List Char → List Char} {statements : List Statement} {c c' : Catalog}
    (h : statements.foldlM (execute signature) c = some c') : Runs signature c statements c' := by
  induction statements generalizing c with
  | nil =>
    cases h
    exact .nil _
  | cons statement statements ih =>
    rw [List.foldlM_cons] at h
    obtain ⟨between, hfirst, hrest⟩ := Option.bind_eq_some_iff.mp h
    exact .cons [] hfirst (fun _ => rfl) (by rw [cascade_nil]; exact ih hrest)

/-- An unqualified name. -/
def ObjectName.own (name : Name) : ObjectName := ⟨none, name⟩

/-- A trigger follows the table it is on to the table's new name. -/
theorem a_renamed_table_keeps_its_trigger :
    let deals := ObjectName.own "deals".toList
    let files : List (List Statement) :=
      [[.createTable deals false, .createOnTable .trigger "audit".toList deals false], [.renameTable deals "offers".toList false]]
    ⟨.trigger, "offers.audit".toList⟩ ∈ (classifyMigrations "app".toList (fun _ => false) files).objects := by
  intro deals files
  have hrun : SafeRun id .empty files.flatten ⟨[.relation .table "offers".toList,
      .attached .trigger "offers".toList "audit".toList], []⟩ := by
    have htable : execute id .empty (.createTable deals false) = some ⟨[.relation .table "deals".toList], []⟩ := by decide
    have htrigger : execute id ⟨[.relation .table "deals".toList], []⟩ (.createOnTable .trigger "audit".toList deals false)
        = some ⟨[.relation .table "deals".toList, .attached .trigger "deals".toList "audit".toList], []⟩ := by decide
    have hrename : execute id ⟨[.relation .table "deals".toList, .attached .trigger "deals".toList "audit".toList], []⟩
        (.renameTable deals "offers".toList false)
        = some ⟨[.relation .table "offers".toList, .attached .trigger "offers".toList "audit".toList], []⟩ := by decide
    have hsafe : Safe id ⟨[.relation .table "deals".toList, .attached .trigger "deals".toList "audit".toList], []⟩
        (.renameTable deals "offers".toList false) := by
      refine ⟨fun kind other name hmem _ => ?_, fun kind => by simp, fun kind name hmem => ?_⟩
      · simp only [List.append_nil, List.mem_cons, reduceCtorEq, Entity.attached.injEq, List.not_mem_nil, or_false,
          false_or] at hmem
        exact hmem.2.1
      · simp only [List.append_nil, List.mem_cons, reduceCtorEq, Entity.attached.injEq, List.not_mem_nil, or_false,
          false_or] at hmem
        rw [hmem.2.2]
        decide
    refine .cons [] trivial htable (fun _ => rfl) ?_
    rw [cascade_nil]
    refine .cons [] trivial htrigger (fun _ => rfl) ?_
    rw [cascade_nil]
    refine .cons [] hsafe hrename (fun _ => rfl) ?_
    rw [cascade_nil]
    exact .nil _
  exact (manifest_lists_what_exists id "app".toList (fun _ => false) files _ (by decide) hrun).1
    (.attached .trigger "offers".toList "audit".toList) (by decide) _ rfl

/-- Sets that are accepted and run, where the manifest loses what exists: a dropped table takes the
    trigger of a table whose name begins with its own and a dot, a trigger on such a table and the
    trigger of a view are not renamed with them, a view renamed by `ALTER TABLE` keeps its old name, and
    a routine renamed to another's name makes a second signature. -/
theorem the_manifest_loses_what_exists :
    let classified (statements : List Statement) := classifyMigrations "app".toList (fun _ => false) [statements]
    let accepted (statements : List Statement) := ∀ file ∈ (classified statements).files, file.refused = []
    let oldDeals := ObjectName.own "deals.old".toList
    let view := ObjectName.own "open".toList
    let dropped : List Statement := [.createTable (.own "deals".toList) false, .createTable oldDeals false,
      .createOnTable .trigger "audit".toList oldDeals false, .drop .table [⟨.own "deals".toList, none⟩] false false]
    let retitled : List Statement := [.createTable oldDeals false, .createOnTable .trigger "audit".toList oldDeals false,
      .renameOnTable .trigger "audit".toList oldDeals "log".toList false]
    let moved : List Statement := [.createView .view view false false, .createOnTable .trigger "audit".toList view false,
      .renameView .view view "all".toList false]
    let renamed : List Statement := [.createView .view view false false, .renameTable view "all".toList false]
    let overloaded : List Statement := [.createRoutine .function (.own "f".toList) "int".toList false,
      .createRoutine .function (.own "g".toList) "text".toList false, .renameRoutine .function (.own "f".toList) none "g".toList]
    (accepted dropped ∧ ∃ c, Runs id .empty dropped c ∧ .attached .trigger "deals.old".toList "audit".toList ∈ c.live ∧
      (classified dropped).objects = [])
      ∧ (accepted retitled ∧ ∃ c, Runs id .empty retitled c ∧ .attached .trigger "deals.old".toList "log".toList ∈ c.live
        ∧ (classified retitled).objects = [⟨.trigger, "deals.log".toList⟩])
      ∧ (accepted moved ∧ ∃ c, Runs id .empty moved c ∧ .attached .trigger "all".toList "audit".toList ∈ c.live
        ∧ (classified moved).objects = [⟨.trigger, "open.audit".toList⟩, ⟨.view, "all".toList⟩])
      ∧ (accepted renamed ∧ ∃ c, Runs id .empty renamed c ∧ .relation (.view .view) "all".toList ∈ c.live
        ∧ (classified renamed).objects = [⟨.view, "open".toList⟩])
      ∧ (accepted overloaded ∧ ∃ c, Runs id .empty overloaded c ∧ .routine .function "g".toList "int".toList ∈ c.live
        ∧ .routine .function "g".toList "text".toList ∈ c.live) := by
  intro classified accepted oldDeals view dropped retitled moved renamed overloaded
  refine ⟨⟨by decide, ⟨[.relation .table "deals.old".toList, .attached .trigger "deals.old".toList "audit".toList], []⟩,
    .of_foldlM (by decide), by decide, by decide⟩,
    ⟨by decide, ⟨[.relation .table "deals.old".toList, .attached .trigger "deals.old".toList "log".toList], []⟩,
      .of_foldlM (by decide), by decide, by decide⟩,
    ⟨by decide, ⟨[.relation (.view .view) "all".toList, .attached .trigger "all".toList "audit".toList], []⟩,
      .of_foldlM (by decide), by decide, by decide⟩,
    ⟨by decide, ⟨[.relation (.view .view) "all".toList], []⟩, .of_foldlM (by decide), by decide, by decide⟩,
    ⟨by decide, ⟨[.routine .function "g".toList "int".toList, .routine .function "g".toList "text".toList], []⟩,
      .of_foldlM (by decide), by decide, by decide⟩⟩

end Fabrika.Platform.Migrations
