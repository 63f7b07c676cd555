/-
  Fabrika.Db.LinksProofs — what `linkTables` establishes of the chains it resolves (see
  `Fabrika.Db.Links`).

  `Chain` says what a table's chain is with no recursion through what is already known:
  `linked` of each model is its chain, the keys it must have are there, and past a link that a
  table owns the chain is that table's own (`Chain.drop`).
-/

import Fabrika.Lib.Keeps
import Fabrika.Db.Links
import Mathlib.Data.List.Induction

namespace Fabrika.Db.Links

open Fabrika.Lib Fabrika.Db.Policy

/-! ## Owners and names -/

def Owns (table : ParsedTable) (dimension : String) : Prop :=
  ∃ key container, table.scope = .dimension dimension key container

theorem tablesByName_lookup {parsed : List ParsedTable} {name : String} {table : ParsedTable}
    (h : (tablesByName parsed).lookup name = some table) : table ∈ parsed ∧ table.name = name := by
  suffices hacc : ∀ (parsed : List ParsedTable) (byName : Record ParsedTable) (P : ParsedTable → Prop),
      (∀ name table, byName.lookup name = some table → P table ∧ table.name = name) → (∀ t ∈ parsed, P t) →
      ∀ name table, (parsed.foldl (fun byName table => byName.insert table.name table) byName).lookup name = some table →
        P table ∧ table.name = name from
    hacc parsed ∅ (· ∈ parsed) (by simp) (fun _ h => h) name table h
  intro parsed
  induction parsed with
  | nil => intro byName P hb _ name table h; exact hb name table h
  | cons t rest ih =>
    intro byName P hb hP name table h
    refine ih (byName.insert t.name t) P ?_ (fun x hx => hP x (List.mem_cons_of_mem _ hx)) name table h
    intro name' table' h'
    by_cases he : name' = t.name
    · subst he
      rw [AList.lookup_insert] at h'
      cases h'
      exact ⟨hP t List.mem_cons_self, rfl⟩
    · rw [AList.lookup_insert_ne he] at h'
      exact hb name' table' h'

theorem ownersOf_spec {parsed : List ParsedTable} {owners : Record ParsedTable} (h : ownersOf parsed = .ok owners)
    (dimension : String) (table : ParsedTable) :
    owners.lookup dimension = some table ↔ table ∈ parsed ∧ Owns table dimension := by
  induction parsed using List.reverseRecOn generalizing owners with
  | nil =>
    cases h
    simp
  | append_singleton parsed last ih =>
    rw [ownersOf, List.foldlM_append, except_bind_eq_ok] at h
    obtain ⟨acc, hbefore, hstep⟩ := h
    rw [List.foldlM_cons, except_bind_eq_ok] at hstep
    obtain ⟨after, hstep, hafter⟩ := hstep
    cases hafter
    have hacc := ih hbefore
    have hnot (hne : ∀ key container, last.scope ≠ .dimension dimension key container) : ¬ Owns last dimension := by
      intro howns
      obtain ⟨key, container, he⟩ := howns
      exact hne key container he
    cases hs : last.scope with
    | dimension dim key container =>
      rw [hs] at hstep
      simp only at hstep
      cases hl : acc.lookup dim with
      | some owner => rw [hl] at hstep; cases hstep
      | none =>
        rw [hl] at hstep
        cases hstep
        by_cases hd : dimension = dim
        · subst hd
          rw [AList.lookup_insert]
          constructor
          · intro he
            cases he
            exact ⟨by simp, key, container, hs⟩
          · intro hwhole
            obtain ⟨hmem, howns⟩ := hwhole
            rcases List.mem_append.mp hmem with hmem | hmem
            · rw [hacc.mpr ⟨hmem, howns⟩] at hl
              cases hl
            · rw [List.mem_singleton.mp hmem]
        · rw [AList.lookup_insert_ne hd, hacc]
          have : ¬ Owns last dimension := hnot fun k c he => by
            rw [hs] at he
            cases he
            exact hd rfl
          grind
    | child _ _ _ _ | reference _ | app _ _ =>
      rw [hs] at hstep
      cases hstep
      have : ¬ Owns last dimension := hnot fun k c he => by rw [hs] at he; cases he
      rw [hacc]
      grind

/-! ## Chains -/

section

variable (byName owners : Record ParsedTable) (containment : Containment)

/-- Where a chain starts: at a table, or above a dimension. -/
inductive Place
  | table (table : ParsedTable)
  | over (dimension : String)

inductive Chain : Place → List Container → Prop
  | top {table dimension key} : table.scope = .dimension dimension key none → Chain (.table table) []
  | contained {table dimension key container links} : table.scope = .dimension dimension key (some container) →
      Chain (.over container.dimension) links → Chain (.table table) (container :: links)
  | reference {table reason} : table.scope = .reference reason → Chain (.table table) []
  | app {table reason key} : table.scope = .app reason key → Chain (.table table) []
  | child {table parentName key column inherit parent dimension parentKey container links} :
      table.scope = .child parentName key column inherit → byName.lookup parentName = some parent →
      parent.scope = .dimension dimension parentKey container → Chain (.table parent) links →
      Chain (.table table) (⟨dimension, column.getD (dimension ++ "_id")⟩ :: links)
  | owned {dimension owner links} : owners.lookup dimension = some owner → Chain (.table owner) links →
      Chain (.over dimension) links
  | last {dimension} : owners.lookup dimension = none → containerOf containment dimension = none →
      Chain (.over dimension) []
  | unowned {dimension container links} : owners.lookup dimension = none →
      containerOf containment dimension = some container → Chain (.over container) links →
      Chain (.over dimension) (⟨container, container ++ "_id"⟩ :: links)

end

variable {byName owners : Record ParsedTable} {containment : Containment}

variable {place : Place} {link : Container}

theorem Chain.unique {a b : List Container} (ha : Chain byName owners containment place a)
    (hb : Chain byName owners containment place b) : a = b := by
  induction ha generalizing b with
  | top hs => cases hb <;> simp_all
  | contained hs _ ih =>
    cases hb with
    | contained hs' hl =>
      rw [hs] at hs'
      cases hs'
      rw [ih hl]
    | top hs' | reference hs' | app hs' => rw [hs] at hs'; cases hs'
    | child hs' _ _ _ => rw [hs] at hs'; cases hs'
  | reference hs => cases hb <;> simp_all
  | app hs => cases hb <;> simp_all
  | child hs hp hps _ ih =>
    cases hb with
    | child hs' hp' hps' hl =>
      rw [hs] at hs'
      cases hs'
      rw [hp] at hp'
      cases hp'
      rw [hps] at hps'
      cases hps'
      rw [ih hl]
    | top hs' | reference hs' | app hs' => rw [hs] at hs'; cases hs'
    | contained hs' _ => rw [hs] at hs'; cases hs'
  | owned ho _ ih =>
    cases hb with
    | owned ho' hl =>
      rw [ho] at ho'
      cases ho'
      exact ih hl
    | last ho' _ => rw [ho] at ho'; cases ho'
    | unowned ho' _ _ => rw [ho] at ho'; cases ho'
  | last ho hc => cases hb <;> simp_all
  | unowned ho hc _ ih =>
    cases hb with
    | owned ho' _ => rw [ho] at ho'; cases ho'
    | last _ hc' => rw [hc] at hc'; cases hc'
    | unowned _ hc' hl =>
      rw [hc] at hc'
      cases hc'
      rw [ih hl]

section
variable {table : ParsedTable} {links : List Container} (h : Chain byName owners containment (.table table) links)
include h

theorem Chain.of_contained {dimension key : String} {container : Container}
    (hs : table.scope = .dimension dimension key (some container)) : ∃ rest, links = container :: rest := by
  cases h with
  | contained hs' _ =>
    rw [hs] at hs'
    cases hs'
    exact ⟨_, rfl⟩
  | top hs' | reference hs' | app hs' => rw [hs] at hs'; cases hs'
  | child hs' _ _ _ => rw [hs] at hs'; cases hs'

theorem Chain.of_child {parentName key : String} {column : Option String} {inherit : Option (List String)}
    (hs : table.scope = .child parentName key column inherit) :
    ∃ parent dimension parentKey container link rest, byName.lookup parentName = some parent ∧
      parent.scope = .dimension dimension parentKey container ∧ links = link :: rest ∧ link.dimension = dimension := by
  cases h with
  | child hs' hp hps _ =>
    rw [hs] at hs'
    cases hs'
    exact ⟨_, _, _, _, _, _, hp, hps, rfl, rfl⟩
  | top hs' | reference hs' | app hs' => rw [hs] at hs'; cases hs'
  | contained hs' _ => rw [hs] at hs'; cases hs'

end

/-- Every dimension table owns its dimension, and nothing else does. -/
def OwnersOf (parsed : List ParsedTable) (byName owners : Record ParsedTable) : Prop :=
  (∀ dimension table, owners.lookup dimension = some table ↔ table ∈ parsed ∧ Owns table dimension) ∧
    ∀ name table, byName.lookup name = some table → table ∈ parsed ∧ table.name = name

variable {parsed : List ParsedTable}

/-- Behind its first link, a chain is what lies above that link. -/
theorem Chain.behind (ho : OwnersOf parsed byName owners) {links : List Container}
    (h : Chain byName owners containment place (link :: links)) :
    Chain byName owners containment (.over link.dimension) links := by
  generalize hl : link :: links = all at h
  induction h with
  | top _ | reference _ | app _ | last _ _ => cases hl
  | contained _ h _ => cases hl; exact h
  | child _ hp hps h _ =>
    cases hl
    have howner := (ho.1 _ _).mpr ⟨(ho.2 _ _ hp).1, _, _, hps⟩
    exact .owned howner h
  | owned _ _ ih => exact ih hl
  | unowned _ _ h _ => cases hl; exact h

/-- Past a link that a table owns, the chain is that table's own. -/
theorem Chain.drop (ho : OwnersOf parsed byName owners) {links : List Container}
    (h : Chain byName owners containment place links) {i : Nat} (hi : links[i]? = some link) {owner : ParsedTable}
    (hown : owners.lookup link.dimension = some owner) :
    Chain byName owners containment (.table owner) (links.drop (i + 1)) := by
  induction i generalizing place links with
  | zero =>
    cases links with
    | nil => cases hi
    | cons first rest =>
      cases hi
      cases h.behind ho with
      | owned hown' hl =>
        rw [hown] at hown'
        cases hown'
        exact hl
      | last hnone _ => rw [hown] at hnone; cases hnone
      | unowned hnone _ _ => rw [hown] at hnone; cases hnone
  | succ i ih =>
    cases links with
    | nil => cases hi
    | cons first rest => exact ih (h.behind ho) (by simpa using hi)

/-! ## What `resolve` answers -/

/-- The keys the source demands of a table whose first link a table owns. -/
def Keyed (owners : Record ParsedTable) (table : ParsedTable) (chain : List Container) : Prop :=
  table.view = false → ∀ link rest owner, chain = link :: rest → owners.lookup link.dimension = some owner →
    references table link.column owner.name (ownerKey owner) = true ∧ requireCoveringKey table link owner rest = .ok ()

/-- The resolved scope is the parsed one, a child's column that of its first link. -/
def SameScope (scope : ParsedScope) (resolved : Resolved) : Prop :=
  match scope with
  | .dimension dimension key container => resolved.scope = .dimension dimension key container
  | .child parent key _ _ =>
    ∃ column inherit, resolved.scope = .child parent key column inherit ∧ resolved.chain.head?.map Container.column = some column
  | .reference reason => resolved.scope = .reference reason
  | .app reason key => resolved.scope = .app reason key

theorem SameScope.dimension {scope : ParsedScope} {resolved : Resolved} (h : SameScope scope resolved)
    {dimension key : String} {container : Option Container} (hs : resolved.scope = .dimension dimension key container) :
    scope = .dimension dimension key container := by
  cases scope with
  | dimension d k c =>
    have : resolved.scope = .dimension d k c := h
    rw [hs] at this
    cases this
    rfl
  | child _ _ _ _ =>
    obtain ⟨_, _, h, _⟩ := h
    rw [hs] at h
    cases h
  | reference _ => cases hs.symm.trans h
  | app _ _ => cases hs.symm.trans h

theorem SameScope.child {scope : ParsedScope} {resolved : Resolved} (h : SameScope scope resolved)
    {parent key column : String} {inherit : List String} (hs : resolved.scope = .child parent key column inherit) :
    resolved.chain.head?.map Container.column = some column ∧
      ∃ stated inherits, scope = .child parent key stated inherits := by
  cases scope with
  | dimension _ _ _ => cases hs.symm.trans h
  | child p k stated inherits =>
    obtain ⟨_, _, h, hhead⟩ := h
    rw [hs] at h
    cases h
    exact ⟨hhead, stated, inherits, rfl⟩
  | reference _ => cases hs.symm.trans h
  | app _ _ => cases hs.symm.trans h

section

variable (byName owners : Record ParsedTable) (containment : Containment)

/-- What `resolveChain` answers. -/
structure Found (table : ParsedTable) (resolved : Resolved) : Prop where
  chain : Chain byName owners containment (.table table) resolved.chain
  keyed : Keyed owners table resolved.chain
  scope : SameScope table.scope resolved

/-- What `resolve` answers, and keeps. -/
structure Linked (table : ParsedTable) (resolved : Resolved) : Prop extends
    Found byName owners containment table resolved where
  carried : ∀ link ∈ resolved.chain, link.column ∈ table.columns
  stamped : checkStamps table resolved.chain = .ok ()

def KnownLinked (parsed : List ParsedTable) (known : Known) : Prop :=
  ∀ table ∈ parsed, ∀ resolved, known.lookup table.name = some resolved → Linked byName owners containment table resolved

end

theorem requireReference_ok {table owner : ParsedTable} {fix : String → String} {u : Unit}
    (h : requireReference table link owner fix = .ok u) : references table link.column owner.name (ownerKey owner) = true := by
  by_contra hno
  simp [requireReference, hno] at h

section

variable {I : Known → Prop} {chainOf : ParsedTable → Link (List Container)}

section
variable (ho : OwnersOf parsed byName owners)
variable (hchain : ∀ table ∈ parsed, Keeps I (chainOf table) (Chain byName owners containment (.table table)))
include ho hchain

theorem above_keeps (fuel : Nat) (dimension : String) :
    Keeps I (above owners containment chainOf fuel dimension) (Chain byName owners containment (.over dimension)) := by
  induction fuel generalizing dimension with
  | zero =>
    unfold above
    cases hown : owners.lookup dimension with
    | some owner => exact (hchain owner ((ho.1 _ _).mp hown).1).mono fun _ h => .owned hown h
    | none =>
      cases hc : containerOf containment dimension with
      | none => exact .pure (.last hown hc)
      | some container => exact .throw
  | succ fuel ih =>
    unfold above
    cases hown : owners.lookup dimension with
    | some owner => exact (hchain owner ((ho.1 _ _).mp hown).1).mono fun _ h => .owned hown h
    | none =>
      cases hc : containerOf containment dimension with
      | none => exact .pure (.last hown hc)
      | some container => exact (ih container).bind fun rest hrest => .pure (.unowned hown hc hrest)

theorem resolveContained_keeps {table : ParsedTable} {dimension key : String} {container : Container}
    (hs : table.scope = .dimension dimension key (some container)) :
    Keeps I (resolveContained owners containment table chainOf dimension key container)
      (Found byName owners containment table) := by
  have habove := above_keeps (I := I) ho hchain containment.keys.length container.dimension
  have hfound : ∀ rest, Chain byName owners containment (.over container.dimension) rest →
      Keyed owners table (container :: rest) →
      Found byName owners containment table ⟨.dimension dimension key (some container), container :: rest⟩ :=
    fun rest hrest hkeyed => ⟨.contained hs hrest, hkeyed, by simp [SameScope, hs]⟩
  unfold resolveContained
  cases hown : owners.lookup container.dimension with
  | none =>
    refine habove.bind fun rest hrest => .pure (hfound rest hrest ?_)
    intro _ link rest' owner he howner
    cases he
    rw [hown] at howner
    cases howner
  | some owner =>
    refine Keeps.bind (Q := fun _ => references table container.column owner.name (ownerKey owner) = true)
      (.lift fun _ h => requireReference_ok h) fun _ href => ?_
    refine (hchain owner ((ho.1 _ _).mp hown).1).bind fun ownerChain hoc => ?_
    refine Keeps.bind (Q := fun _ => requireCoveringKey table container owner ownerChain = .ok ())
      (.lift fun _ h => h) fun _ hcover => ?_
    refine habove.bind fun rest hrest => .pure (hfound rest hrest ?_)
    intro _ link rest' owner' he howner
    cases he
    rw [hown] at howner
    cases howner
    -- The owner's chain is what lies above the container, so the key was demanded of this chain.
    rw [← Chain.unique (.owned hown hoc) hrest]
    exact ⟨href, hcover⟩

theorem resolveChild_keeps {table parent : ParsedTable} {parentName key dimension parentKey : String} {column : Option String}
    {inherit : Option (List String)} {container : Option Container} (hs : table.scope = .child parentName key column inherit)
    (hp : byName.lookup parentName = some parent) (hps : parent.scope = .dimension dimension parentKey container) :
    Keeps I (resolveChild table chainOf parentName key column inherit parent dimension)
      (Found byName owners containment table) := by
  have hmem := (ho.2 _ _ hp).1
  have hown := (ho.1 _ _).mpr ⟨hmem, _, _, hps⟩
  unfold resolveChild
  refine (hchain parent hmem).bind fun parentChain hpc => ?_
  refine Keeps.bind (Q := fun _ => True) (.lift fun _ _ => trivial) fun _ _ => ?_
  refine Keeps.bind (Q := fun name => name = column.getD (dimension ++ "_id")) (.lift fun name h => ?_) ?_
  · cases column with
    | some stated => cases h; rfl
    | none =>
      simp only [childColumn, parentColumn] at h
      split at h
      · cases h; rfl
      · cases h
  intro name hname
  subst hname
  refine Keeps.bind (Q := fun _ => Keyed owners table (⟨dimension, column.getD (dimension ++ "_id")⟩ :: parentChain))
    (.lift fun _ h => ?_) fun _ hkeyed => .pure ⟨.child hs hp hps hpc, hkeyed, ?_⟩
  · intro hview link rest owner he howner
    cases he
    rw [hown] at howner
    cases howner
    simp only [requireParent, hview, Bool.false_eq_true, if_false] at h
    obtain ⟨_, href, hcover⟩ := except_bind_eq_ok.mp h
    exact ⟨requireReference_ok href, hcover⟩
  · rw [hs]
    exact ⟨_, _, rfl, rfl⟩

theorem resolveChain_keeps (table : ParsedTable) :
    Keeps I (resolveChain byName owners containment table chainOf) (Found byName owners containment table) := by
  have hnone : ∀ {resolved : Resolved}, resolved.chain = [] → Keyed owners table resolved.chain := by
    intro resolved he _ link rest owner he'
    rw [he] at he'
    cases he'
  unfold resolveChain
  cases hs : table.scope with
  | dimension dimension key container =>
    cases container with
    | none => exact .pure ⟨.top hs, hnone rfl, by simp [SameScope, hs]⟩
    | some container => exact resolveContained_keeps ho hchain hs
  | reference reason => exact .pure ⟨.reference hs, hnone rfl, by simp [SameScope, hs]⟩
  | app reason key => exact .pure ⟨.app hs, hnone rfl, by simp [SameScope, hs]⟩
  | child parentName key column inherit =>
    dsimp only
    cases hp : byName.lookup parentName with
    | none => exact .throw
    | some parent =>
      dsimp only
      cases hps : parent.scope with
      | dimension dimension parentKey container => exact resolveChild_keeps ho hchain hs hp hps
      | child _ _ _ _ | reference _ | app _ _ => exact .throw

end

end

theorem checkCarried_ok {table : ParsedTable} {chain : List Container} (h : checkCarried table chain = .ok ()) :
    ∀ link ∈ chain, link.column ∈ table.columns := by
  intro link hl
  unfold checkCarried at h
  cases hf : chain.find? fun link => !inSet table.columns link.column with
  | some missing => rw [hf] at h; cases h
  | none =>
    have := List.find?_eq_none.mp hf link hl
    simpa [inSet] using this

theorem resolve_keeps (ho : OwnersOf parsed byName owners) (hnames : (parsed.map TableOf.name).Nodup) (fuel : Nat)
    (visiting : List String) {table : ParsedTable} (hmem : table ∈ parsed) :
    Keeps (KnownLinked byName owners containment parsed) (resolve byName owners containment fuel visiting table)
      (Linked byName owners containment table) := by
  induction fuel generalizing visiting table with
  | zero =>
    unfold resolve
    refine Keeps.get.bind fun known hknown => ?_
    cases hl : known.lookup table.name with
    | some resolved => exact .pure (hknown table hmem resolved hl)
    | none =>
      dsimp only
      split
      · exact .throw
      · exact .throw
  | succ fuel ih =>
    unfold resolve
    refine Keeps.get.bind fun known hknown => ?_
    cases hl : known.lookup table.name with
    | some resolved => exact .pure (hknown table hmem resolved hl)
    | none =>
      dsimp only
      split
      · exact .throw
      refine (resolveChain_keeps ho (fun next hnext =>
        (ih (visiting ++ [table.name]) hnext).bind fun resolved hres => .pure hres.chain) table).bind fun result hfound => ?_
      refine Keeps.bind (Q := fun _ => checkCarried table result.chain = .ok ()) (.lift fun _ h => h) fun _ hcarried => ?_
      refine Keeps.bind (Q := fun _ => checkStamps table result.chain = .ok ()) (.lift fun _ h => h) fun _ hstamped => ?_
      have hlinked : Linked byName owners containment table result := ⟨hfound, checkCarried_ok hcarried, hstamped⟩
      refine (Keeps.modify fun known hknown table' hmem' resolved hres => ?_).bind fun _ _ => .pure hlinked
      by_cases hname : table'.name = table.name
      · have : table' = table := List.inj_on_of_nodup_map hnames hmem' hmem hname
        subst this
        rw [AList.lookup_insert] at hres
        cases hres
        exact hlinked
      · rw [AList.lookup_insert_ne hname] at hres
        exact hknown table' hmem' resolved hres

/-! ## All tables -/

theorem resolveAll_keeps (ho : OwnersOf parsed byName owners) (hnames : (parsed.map TableOf.name).Nodup) (fuel : Nat)
    {tables : List ParsedTable} (hsub : ∀ table ∈ tables, table ∈ parsed) :
    Keeps (KnownLinked byName owners containment parsed) (resolveAll byName owners containment fuel tables) fun models =>
      ∀ T ∈ models, ∃ t ∈ parsed, ∃ resolved, Linked byName owners containment t resolved ∧ T = TableOf.linked t resolved := by
  induction tables with
  | nil => exact .pure (by simp)
  | cons table rest ih =>
    have hmem := hsub table List.mem_cons_self
    refine (resolve_keeps ho hnames fuel [] hmem).bind fun resolved hres => ?_
    refine (ih fun t ht => hsub t (List.mem_cons_of_mem _ ht)).bind fun models hmodels => .pure ?_
    intro T hT
    rcases List.mem_cons.mp hT with rfl | hT
    · exact ⟨table, hmem, resolved, hres, rfl⟩
    · exact hmodels T hT

/-! ## What the parse of a table leaves -/

theorem parseTable_parts {table : String} {entry : TableColumns} {policy : TablePolicy} {vocabulary : Vocabulary}
    {t : ParsedTable} (h : parseTable table entry policy vocabulary = .ok t) :
    t.name = table ∧ parseScope table (nameSet entry.columns) policy.scope vocabulary.dimensions = .ok t.scope ∧
      checkView table t.view t.scope = .ok () ∧
      parseActions table vocabulary.actions policy.scope policy.actions = .ok t.actions ∧
      entry.foreignKeys.mapM (parseForeignKey table (nameSet entry.columns)) = .ok t.foreignKeys := by
  unfold parseTable at h
  obtain ⟨_, _, h⟩ := except_bind_eq_ok.mp h
  obtain ⟨_, _, h⟩ := except_bind_eq_ok.mp h
  obtain ⟨foreignKeys, hkeys, h⟩ := except_bind_eq_ok.mp h
  obtain ⟨scope, hscope, h⟩ := except_bind_eq_ok.mp h
  obtain ⟨_, hview, h⟩ := except_bind_eq_ok.mp h
  obtain ⟨actions, hactions, h⟩ := except_bind_eq_ok.mp h
  -- What is left reads the columns' own policies; none of it moves the scope or the actions.
  iterate 15 obtain ⟨_, _, h⟩ := except_bind_eq_ok.mp h
  cases h
  exact ⟨rfl, hscope, hview, hactions, hkeys⟩

/-- The parse of the keys changes none of them. -/
theorem parseForeignKeys_same {table : String} {columns : List String} {keys parsed : List ForeignKey}
    (h : keys.mapM (parseForeignKey table columns) = .ok parsed) : parsed = keys := by
  induction keys generalizing parsed with
  | nil => cases h; rfl
  | cons key rest ih =>
    rw [List.mapM_cons] at h
    obtain ⟨key', hkey, h⟩ := except_bind_eq_ok.mp h
    obtain ⟨rest', hrest, h⟩ := except_bind_eq_ok.mp h
    cases h
    unfold parseForeignKey at hkey
    iterate 4 obtain ⟨_, _, hkey⟩ := except_bind_eq_ok.mp hkey
    cases hkey
    rw [ih hrest]

theorem refuseIf_ok {refused : Bool} {message : String} {u : Unit} (h : refuseIf refused message = .ok u) :
    refused = false := by
  cases refused with
  | true => cases h
  | false => rfl

theorem parseContainer_dimension {table dimension : String} {columns : List String} {container : Option String}
    {input : Option ContainerInput} {c : Option Container}
    (h : parseContainer table columns dimension container input = .ok c) : c.map Container.dimension = container := by
  cases container with
  | none =>
    cases input with
    | none => cases h; rfl
    | some _ => cases h
  | some container =>
    cases input with
    | none =>
      obtain ⟨_, _, h⟩ := except_bind_eq_ok.mp h
      cases h
      rfl
    | some stated =>
      obtain ⟨_, _, h⟩ := except_bind_eq_ok.mp h
      obtain ⟨_, _, h⟩ := except_bind_eq_ok.mp h
      cases h
      rfl

/-- A dimension table's container is the vocabulary's. -/
theorem parseScope_container {table dimension key : String} {columns : List String} {scope : ScopeInput}
    {containment : Containment} {container : Option Container}
    (h : parseScope table columns scope containment = .ok (.dimension dimension key container)) :
    containerOf containment dimension = container.map Container.dimension := by
  cases scope with
  | dimension name stated input =>
    obtain ⟨name', _, h⟩ := except_bind_eq_ok.mp h
    cases hl : containment.lookup name' with
    | none => rw [hl] at h; cases h
    | some vocabularyContainer =>
      rw [hl] at h
      obtain ⟨c, hc, h⟩ := except_bind_eq_ok.mp h
      obtain ⟨k, _, h⟩ := except_bind_eq_ok.mp h
      cases h
      rw [containerOf, hl, parseContainer_dimension hc]
      rfl
  | child parent stated column inherit =>
    iterate 4 obtain ⟨_, _, h⟩ := except_bind_eq_ok.mp h
    cases h
  | reference reason =>
    obtain ⟨_, _, h⟩ := except_bind_eq_ok.mp h
    cases h
  | app reason stated =>
    iterate 2 obtain ⟨_, _, h⟩ := except_bind_eq_ok.mp h
    cases h

theorem distinctActions_ne_nil {table field : String} {vocabulary input names : List String}
    (h : distinctActions table vocabulary input field = .ok names) : names ≠ [] := by
  obtain ⟨names', _, h⟩ := except_bind_eq_ok.mp h
  obtain ⟨_, hne, h⟩ := except_bind_eq_ok.mp h
  cases ht : twice [] names' with
  | some name => rw [ht] at h; cases h
  | none =>
    rw [ht] at h
    cases h
    simpa using refuseIf_ok hne

/-- Every table names a read action. -/
theorem parseActions_read {table : String} {vocabulary : List String} {scope : ScopeInput} {input : ActionsInput}
    {actions : ActionModel} (h : parseActions table vocabulary scope input = .ok actions) : actions.read ≠ [] := by
  obtain ⟨read, hread, h⟩ := except_bind_eq_ok.mp h
  iterate 6 obtain ⟨_, _, h⟩ := except_bind_eq_ok.mp h
  cases h
  cases hr : input.read with
  | one value =>
    rw [hr] at hread
    obtain ⟨name, _, hread⟩ := except_bind_eq_ok.mp hread
    cases hread
    simp
  | list values =>
    rw [hr] at hread
    exact distinctActions_ne_nil hread

/-- A view is a child or a reference. -/
theorem checkView_dimension {table dimension key : String} {view : Bool} {container : Option Container}
    (h : checkView table view (.dimension dimension key container) = .ok ()) : view = false := by
  cases view with
  | true => cases h
  | false => rfl

/-- The climb from a dimension ends within `n` steps. -/
def Grounded (containment : Containment) : Nat → Option String → Prop
  | _, none => True
  | 0, some _ => False
  | n + 1, some dimension => Grounded containment n (containerOf containment dimension)

theorem checkClimb_grounded {fuel : Nat} {path : List String} {dimension : Option String}
    (h : checkClimb containment fuel path dimension = .ok ()) : Grounded containment fuel dimension := by
  induction fuel generalizing path dimension with
  | zero =>
    cases dimension with
    | none => trivial
    | some _ => cases h
  | succ fuel ih =>
    cases dimension with
    | none => trivial
    | some name =>
      unfold checkClimb at h
      split at h
      · cases h
      · exact ih h

theorem parseVocabulary_grounded {input vocabulary : Vocabulary} (h : parseVocabulary input = .ok vocabulary)
    (dimension : String) :
    Grounded vocabulary.dimensions vocabulary.dimensions.keys.length (containerOf vocabulary.dimensions dimension) := by
  obtain ⟨_, _, h⟩ := except_bind_eq_ok.mp h
  obtain ⟨_, hclimb, h⟩ := except_bind_eq_ok.mp h
  cases h
  by_cases hkey : dimension ∈ input.dimensions.keys
  · exact checkClimb_grounded (except_forM_eq_ok.mp hclimb dimension hkey)
  · have hnone : input.dimensions.lookup dimension = none := AList.lookup_eq_none.mpr hkey
    simp [containerOf, hnone, Grounded]

/-- No dimension of a vocabulary lies in itself. -/
theorem Grounded.irreflexive {n : Nat} {dimension : String} (h : Grounded containment n (containerOf containment dimension)) :
    containerOf containment dimension ≠ some dimension := by
  intro hself
  induction n with
  | zero => rw [hself] at h; exact h
  | succ n ih =>
    rw [hself] at h
    exact ih h

/-! ## Accepted policies -/

theorem parseEach_spec {policies : Record TablePolicy} {vocabulary : Vocabulary}
    {entries : List (Sigma fun _ : String => TableColumns)} (h : parseEach policies vocabulary entries = .ok parsed) :
    (parsed.map TableOf.name).Sublist entries.keys ∧
      ∀ t ∈ parsed, ∃ entry policy, ⟨t.name, entry⟩ ∈ entries ∧ parseTable t.name entry policy vocabulary = .ok t := by
  induction entries generalizing parsed with
  | nil => cases h; exact ⟨.slnil, by simp⟩
  | cons entry rest ih =>
    obtain ⟨table, entry⟩ := entry
    unfold parseEach at h
    cases hl : policies.lookup table with
    | none =>
      rw [hl] at h
      simp only at h
      split at h
      · refine ⟨(ih h).1.cons table, fun t ht => ?_⟩
        obtain ⟨entry', policy, hmem, hparse⟩ := (ih h).2 t ht
        exact ⟨entry', policy, List.mem_cons_of_mem _ hmem, hparse⟩
      · cases h
    | some policy =>
      rw [hl] at h
      obtain ⟨t, ht, h⟩ := except_bind_eq_ok.mp h
      obtain ⟨others, hothers, h⟩ := except_bind_eq_ok.mp h
      cases h
      have hname := (parseTable_parts ht).1
      refine ⟨?_, ?_⟩
      · rw [List.map_cons, hname]
        exact (ih hothers).1.cons_cons table
      · intro t' ht'
        rcases List.mem_cons.mp ht' with rfl | ht'
        · exact ⟨entry, policy, by simp [hname], by rw [hname]; exact ht⟩
        · obtain ⟨entry', policy', hmem, hparse⟩ := (ih hothers).2 t' ht'
          exact ⟨entry', policy', List.mem_cons_of_mem _ hmem, hparse⟩

/-- The tables of an accepted policy set, as they were parsed and as they were linked. -/
structure Accepted (columns : Record TableColumns) (vocabulary : Vocabulary) (models : List TableModel) where
  parsed : List ParsedTable
  owners : Record ParsedTable
  grounded : ∀ dimension, Grounded vocabulary.dimensions vocabulary.dimensions.keys.length
    (containerOf vocabulary.dimensions dimension)
  names : (parsed.map TableOf.name).Nodup
  tables : ∀ t ∈ parsed, ∃ entry policy, ⟨t.name, entry⟩ ∈ columns.entries ∧
    parseTable t.name entry policy vocabulary = .ok t
  owned : OwnersOf parsed (tablesByName parsed) owners
  linked : ∀ T ∈ models, ∃ t ∈ parsed, ∃ resolved,
    Linked (tablesByName parsed) owners vocabulary.dimensions t resolved ∧ T = TableOf.linked t resolved

theorem readTables_accepted {columns : Record TableColumns} {policies : Record TablePolicy} {input : Vocabulary}
    {models : List TableModel} (h : readTables columns policies input = .ok models) :
    ∃ vocabulary, Nonempty (Accepted columns vocabulary models) := by
  obtain ⟨vocabulary, hvoc, h⟩ := except_bind_eq_ok.mp h
  obtain ⟨_, _, h⟩ := except_bind_eq_ok.mp h
  obtain ⟨parsed, hparsed, h⟩ := except_bind_eq_ok.mp h
  obtain ⟨owners, howners, h⟩ := except_bind_eq_ok.mp h
  obtain ⟨_, _, h⟩ := except_bind_eq_ok.mp h
  obtain ⟨⟨models', known⟩, hrun, h⟩ := except_bind_eq_ok.mp h
  cases h
  obtain ⟨hsub, htables⟩ := parseEach_spec hparsed
  have hnames : (parsed.map TableOf.name).Nodup := hsub.nodup columns.nodupKeys
  have howned : OwnersOf parsed (tablesByName parsed) owners :=
    ⟨ownersOf_spec howners, fun name table hl => tablesByName_lookup hl⟩
  have hlinked := resolveAll_keeps howned hnames (parsed.length + 1)
    (fun _ h => h) ∅ models known (by intro t _ r hr; simp at hr) hrun
  exact ⟨vocabulary, ⟨parsed, owners, parseVocabulary_grounded hvoc, hnames, htables, howned, hlinked.2⟩⟩

namespace Accepted

variable {columns : Record TableColumns} {vocabulary : Vocabulary} {models : List TableModel}
  (accepted : Accepted columns vocabulary models) {T O O' : TableModel}

include accepted

/-- The table a model that owns a dimension was parsed to, which is its owner. -/
theorem owner {dimension key : String} {container : Option Container} (hO : O ∈ models)
    (hs : O.scope = .dimension dimension key container) : ∃ o resolved,
      Linked (tablesByName accepted.parsed) accepted.owners vocabulary.dimensions o resolved ∧
      O = TableOf.linked o resolved ∧ accepted.owners.lookup dimension = some o ∧ ownerKey o = key ∧ o ∈ accepted.parsed := by
  obtain ⟨o, ho, resolved, hlinked, rfl⟩ := accepted.linked O hO
  have hscope := hlinked.scope.dimension hs
  exact ⟨o, resolved, hlinked, rfl, (accepted.owned.1 _ _).mpr ⟨ho, key, container, hscope⟩, by simp [ownerKey, hscope], ho⟩

/-- Past a link that `O` owns, a chain is the chain of `O`. -/
theorem chain_past_owned (hT : T ∈ models) (hO : O ∈ models) {i : Nat} {key : String} {container : Option Container}
    (hi : T.chain[i]? = some link) (hs : O.scope = .dimension link.dimension key container) :
    O.chain = T.chain.drop (i + 1) := by
  obtain ⟨t, _, resolved, hlinked, rfl⟩ := accepted.linked T hT
  obtain ⟨o, resolved', hlinked', rfl, hown, _, _⟩ := accepted.owner hO hs
  exact Chain.unique hlinked'.chain (hlinked.chain.drop accepted.owned hi hown)

/-- One table owns a dimension. -/
theorem owner_unique (hO : O ∈ models) (hO' : O' ∈ models) {dimension key key' : String} {container container' : Option Container}
    (hs : O.scope = .dimension dimension key container) (hs' : O'.scope = .dimension dimension key' container') : O = O' := by
  obtain ⟨o, resolved, hlinked, rfl, hown, _, _⟩ := accepted.owner hO hs
  obtain ⟨o', resolved', hlinked', rfl, hown', _, _⟩ := accepted.owner hO' hs'
  rw [hown] at hown'
  cases hown'
  have hchain := Chain.unique hlinked.chain hlinked'.chain
  have hscope : resolved.scope = resolved'.scope := by
    have h : resolved.scope = .dimension dimension key container := hs
    have h' : resolved'.scope = .dimension dimension key' container' := hs'
    have hparsed := hlinked.scope.dimension hs
    have hparsed' := hlinked'.scope.dimension hs'
    rw [hparsed] at hparsed'
    cases hparsed'
    rw [h, h']
  obtain ⟨scope, chain⟩ := resolved
  obtain ⟨scope', chain'⟩ := resolved'
  cases hchain
  cases hscope
  rfl

/-- A table that owns a dimension is no view. -/
theorem owner_not_view (hO : O ∈ models) {dimension key : String} {container : Option Container}
    (hs : O.scope = .dimension dimension key container) : O.view = false := by
  obtain ⟨o, resolved, _, rfl, hown, _, hmem⟩ := accepted.owner hO hs
  obtain ⟨_, key', container', hscope⟩ := (accepted.owned.1 _ _).mp hown
  obtain ⟨entry, policy, _, hparse⟩ := accepted.tables o hmem
  have hview := (parseTable_parts hparse).2.2.1
  rw [hscope] at hview
  exact checkView_dimension hview

/-- The model's keys are those the column list states. -/
theorem listed_keys (hT : T ∈ models) : ∃ entry, ⟨T.name, entry⟩ ∈ columns.entries ∧ T.foreignKeys = entry.foreignKeys := by
  obtain ⟨t, ht, resolved, _, rfl⟩ := accepted.linked T hT
  obtain ⟨entry, policy, hmem, hparse⟩ := accepted.tables t ht
  exact ⟨entry, hmem, parseForeignKeys_same (parseTable_parts hparse).2.2.2.2⟩

/-- A table whose first link `O` owns has a key to `O` that takes the link to its key and
    every inherited column to itself. -/
theorem covering_key (hT : T ∈ models) (hO : O ∈ models) (hview : T.view = false) {rest : List Container}
    (hchain : T.chain = link :: rest) {key : String} {container : Option Container}
    (hs : O.scope = .dimension link.dimension key container) :
    ∃ foreignKey ∈ T.foreignKeys, foreignKey.table = O.name ∧ coversPairs foreignKey (coveredPairs link key rest) = true := by
  obtain ⟨t, _, resolved, hlinked, rfl⟩ := accepted.linked T hT
  obtain ⟨o, resolved', _, rfl, hown, rfl, _⟩ := accepted.owner hO hs
  have hchain' : resolved.chain = link :: rest := hchain
  obtain ⟨href, hcover⟩ := hlinked.keyed hview link rest o hchain' hown
  by_cases hrest : rest = []
  · subst hrest
    obtain ⟨foreignKey, hmem, hkey⟩ := List.any_eq_true.mp href
    simp only [Bool.and_eq_true, decide_eq_true_eq] at hkey
    exact ⟨foreignKey, hmem, hkey.1, by simpa [coversPairs, coveredPairs] using hkey.2⟩
  · have hcarried : (rest.any fun inherited => !inSet t.columns inherited.column) = false := by
      rw [List.any_eq_false]
      intro inherited hin
      have := hlinked.carried inherited (by rw [hchain']; exact List.mem_cons_of_mem _ hin)
      simpa [inSet] using this
    simp only [requireCoveringKey, hrest, hcarried, if_false, Bool.false_eq_true] at hcover
    split at hcover
    · rename_i hany
      obtain ⟨foreignKey, hmem, hkey⟩ := List.any_eq_true.mp hany
      simp only [Bool.and_eq_true, decide_eq_true_eq] at hkey
      exact ⟨foreignKey, hmem, hkey.1, hkey.2⟩
    · cases hcover

/-- A child's chain starts at its parent's dimension. -/
theorem child_chain (hT : T ∈ models) (hO : O ∈ models) {key column dimension ownerKey : String} {inherit : List String}
    {container : Option Container} (hs : T.scope = .child O.name key column inherit)
    (hs' : O.scope = .dimension dimension ownerKey container) : ∃ rest, T.chain = ⟨dimension, column⟩ :: rest := by
  obtain ⟨t, _, resolved, hlinked, rfl⟩ := accepted.linked T hT
  obtain ⟨o, ho, resolved', hlinked', rfl⟩ := accepted.linked O hO
  obtain ⟨hhead, stated, inherits, hscope⟩ := hlinked.scope.child hs
  have hscope' := hlinked'.scope.dimension hs'
  obtain ⟨parent, dimension', _, _, link, rest, hp, hps, hchain, hdim⟩ := hlinked.chain.of_child hscope
  obtain ⟨hmem, hname⟩ := accepted.owned.2 _ _ hp
  have hsame : parent = o := List.inj_on_of_nodup_map accepted.names hmem ho hname
  subst hsame
  rw [hscope'] at hps
  cases hps
  rw [hchain] at hhead
  have hcolumn : link.column = column := by simpa using hhead
  exact ⟨rest, by rw [← hdim, ← hcolumn]; exact hchain⟩

/-- A dimension table's chain starts at its container, which is not its own dimension. -/
theorem contained_chain (hT : T ∈ models) {dimension key : String} {container : Container}
    (hs : T.scope = .dimension dimension key (some container)) :
    (∃ rest, T.chain = container :: rest) ∧ container.dimension ≠ dimension := by
  obtain ⟨t, ht, resolved, hlinked, rfl⟩ := accepted.linked T hT
  have hscope := hlinked.scope.dimension hs
  obtain ⟨entry, policy, _, hparse⟩ := accepted.tables t ht
  refine ⟨hlinked.chain.of_contained hscope, ?_⟩
  · intro heq
    have hcontainer := parseScope_container (hscope ▸ (parseTable_parts hparse).2.1)
    have := (accepted.grounded dimension).irreflexive
    rw [hcontainer] at this
    exact this (by simp [heq])

theorem read_action (hT : T ∈ models) : T.actions.read ≠ [] := by
  obtain ⟨t, ht, resolved, _, rfl⟩ := accepted.linked T hT
  obtain ⟨entry, policy, _, hparse⟩ := accepted.tables t ht
  exact parseActions_read (parseTable_parts hparse).2.2.2.1

end Accepted

end Fabrika.Db.Links
