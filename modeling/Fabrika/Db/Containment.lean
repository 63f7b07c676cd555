/-
  Fabrika.Db.Containment — what the keys of an accepted policy set make of its rows (see
  `Fabrika.Db.Links`).

  A database is its rows by table, and a foreign key binds a row only where none of its columns
  is null (MATCH SIMPLE). `Contained` is what the chains are for: a row that carries its whole
  chain agrees with the owner of each link. `linkTables` demands a key for the first link only,
  where a table owns it, and takes one with further columns.
  - `contained_iff`: an accepted policy set is contained exactly where the declared keys lead
    on wherever `linkTables` did not see to it.
  - `an_unowned_team`, `a_region_left_null`: accepted policy sets where they do not.
-/

import Mathlib.Data.Set.Insert
import Fabrika.Db.LinksProofs

namespace Fabrika.Db.Containment

open Fabrika.Db.Policy Fabrika.Db.Links

variable {V : Type}

abbrev Row (V : Type) := String → Option V

abbrev Database (V : Type) := String → Set (Row V)

/-- Every listed key holds of every row whose columns of it are all filled. -/
def Satisfies (db : Database V) (columns : Record TableColumns) : Prop :=
  ∀ table entry, ⟨table, entry⟩ ∈ columns.entries → ∀ key ∈ entry.foreignKeys, ∀ row ∈ db table,
    (∀ column ∈ key.columns, row column ≠ none) →
      ∃ target ∈ db key.table, ∀ pair ∈ ForeignKey.pairs key, target pair.2 = row pair.1

/-- For each link of the chain that a table owns, a row of that table stands under the link's
    value and carries the rest of the chain, which is that table's own chain. -/
def Agrees (models : List TableModel) (T : TableModel) (db : Database V) (row : Row V) : Prop :=
  ∀ i link, T.chain[i]? = some link → ∀ O ∈ models, ∀ key container, O.scope = .dimension link.dimension key container →
    O.chain = T.chain.drop (i + 1) ∧
    ∃ owner ∈ db O.name, owner key = row link.column ∧ ∀ inherited ∈ O.chain, owner inherited.column = row inherited.column

def Contained (columns : Record TableColumns) (models : List TableModel) : Prop :=
  ∀ T ∈ models, T.view = false → ∀ (V : Type) (db : Database V), Satisfies db columns → ∀ row ∈ db T.name,
    (∀ link ∈ T.chain, row link.column ≠ none) → Agrees models T db row

/-! ## Where the keys lead -/

def chainColumns (T : TableModel) : List String := T.chain.map Container.column

/-- What stands in the columns a key references, for what stands in the columns it binds. -/
def carry (key : ForeignKey) (row : Row String) : Row String := fun column =>
  ((ForeignKey.pairs key).find? fun pair => pair.2 = column).bind fun pair => row pair.1

/-- A row with nothing but `carried` filled, each with its own name. -/
def named (carried : List String) : Row String := fun column => if column ∈ carried then some column else none

/-- The walks along declared keys from a row of `table` that has nothing but `carried` filled:
    a row so reached holds, in each column, the name of the column its value came from. -/
inductive Leads (columns : Record TableColumns) (table : String) (carried : List String) : String → Row String → Prop
  | start : Leads columns table carried table (named carried)
  | along {at_ : String} {row : Row String} {entry : TableColumns} {key : ForeignKey} :
      Leads columns table carried at_ row → ⟨at_, entry⟩ ∈ columns.entries → key ∈ entry.foreignKeys →
      (∀ column ∈ key.columns, row column ≠ none) → Leads columns table carried key.table (carry key row)

/-- The keys lead from the chain of `T` to the row of `O` that owns `link`. -/
def LeadsToOwner (columns : Record TableColumns) (T O : TableModel) (link : Container) (key : String) : Prop :=
  ∃ row, Leads columns T.name (chainColumns T) O.name row ∧ row key = some link.column ∧
    ∀ inherited ∈ O.chain, row inherited.column = some inherited.column

/-- `O` owns the first link of `T`'s chain that a table owns. -/
structure Nearest (models : List TableModel) (T O : TableModel) (i : Nat) (link : Container) (key : String) : Prop where
  mem : O ∈ models
  at_ : T.chain[i]? = some link
  owns : ∃ container, O.scope = .dimension link.dimension key container
  first : ∀ j < i, ∀ link', T.chain[j]? = some link' → ∀ O' ∈ models, ∀ key' container',
    O'.scope ≠ .dimension link'.dimension key' container'

/-- The keys `requireReference` and `requireCoveringKey` look for have no column besides the
    chain's. -/
def Tight (T O : TableModel) (link : Container) (key : String) : Prop :=
  ∀ foreignKey ∈ T.foreignKeys, foreignKey.table = O.name →
    coversPairs foreignKey (coveredPairs link key O.chain) = true → ∀ column ∈ foreignKey.columns, column ∈ chainColumns T

/-- Wherever the nearest owned link is not the first one, or a key that covers it has further
    columns, the declared keys lead to its owner all the same. -/
def Bound (columns : Record TableColumns) (models : List TableModel) : Prop :=
  ∀ T ∈ models, T.view = false → ∀ O i link key, Nearest models T O i link key →
    ¬ (i = 0 ∧ Tight T O link key) → LeadsToOwner columns T O link key

/-! ## A walk is in every database -/

variable {row : Row V} {db : Database V} {O T : TableModel} {container : Option Container} {i : Nat} {key : String}
variable {link : Container}

theorem named_eq_some {carried : List String} {column source : String} :
    named carried column = some source ↔ column ∈ carried ∧ column = source := by
  by_cases h : column ∈ carried
  · simp [named, h]
  · simp [named, h]

theorem Leads.carried {columns : Record TableColumns} {table at_ : String} {carried : List String} {row : Row String}
    (h : Leads columns table carried at_ row) {column source : String} (hrow : row column = some source) : source ∈ carried := by
  induction h generalizing column with
  | start =>
    obtain ⟨hmem, rfl⟩ := (named_eq_some).mp hrow
    exact hmem
  | along _ _ _ _ ih =>
    obtain ⟨pair, _, hpair⟩ := Option.bind_eq_some_iff.mp hrow
    exact ih hpair

/-- A database that satisfies the keys has, for each walk, a row with the values the walk
    carried there. -/
theorem Leads.realized {columns : Record TableColumns} {table at_ : String} {carried : List String} {walked : Row String}
    (h : Leads columns table carried at_ walked) (hdb : Satisfies db columns) (hrow : row ∈ db table)
    (hfilled : ∀ column ∈ carried, row column ≠ none) :
    ∃ target ∈ db at_, ∀ column source, walked column = some source → target column = row source := by
  induction h with
  | start =>
    refine ⟨row, hrow, ?_⟩
    intro column source hs
    rw [((named_eq_some).mp hs).2]
  | along hwalk hentry hkey hcolumns ih =>
    rename_i at' walked entry key
    obtain ⟨target, htarget, hvalues⟩ := ih
    have hbound : ∀ column ∈ key.columns, target column ≠ none := by
      intro column hc
      obtain ⟨source, hs⟩ := Option.ne_none_iff_exists'.mp (hcolumns column hc)
      rw [hvalues column source hs]
      exact hfilled source (hwalk.carried hs)
    obtain ⟨target', htarget', hpairs⟩ := hdb at' entry hentry key hkey target htarget hbound
    refine ⟨target', htarget', ?_⟩
    intro column source hs
    obtain ⟨pair, hfind, hpair⟩ := Option.bind_eq_some_iff.mp hs
    have hcolumn : pair.2 = column := by simpa using List.find?_some hfind
    calc target' column = target' pair.2 := by rw [hcolumn]
      _ = target pair.1 := hpairs pair (List.mem_of_find?_eq_some hfind)
      _ = row source := hvalues pair.1 source hpair

/-! ## The walks are a database -/

/-- The database of the walks from `carried`, the least one with such a row. -/
def walks (columns : Record TableColumns) (table : String) (carried : List String) : Database String := fun at_ =>
  {row | Leads columns table carried at_ row}

theorem map_snd_zip_sublist (columns referenced : List String) :
    ((columns.zip referenced).map Prod.snd).Sublist referenced := by
  induction columns generalizing referenced with
  | nil => simp
  | cons column columns ih =>
    cases referenced with
    | nil => simp
    | cons first rest => exact (ih rest).cons_cons first

theorem carry_pair {key : ForeignKey} {row : Row String} {pair : String × String} (h : pair ∈ ForeignKey.pairs key) :
    carry key row pair.2 = row pair.1 := by
  have hnodup : ((ForeignKey.pairs key).map Prod.snd).Nodup := (map_snd_zip_sublist _ _).nodup key.distinct
  cases hfind : (ForeignKey.pairs key).find? fun other => other.2 = pair.2 with
  | none =>
    have := List.find?_eq_none.mp hfind pair h
    simp at this
  | some found =>
    have hsnd : found.2 = pair.2 := by simpa using List.find?_some hfind
    have : found = pair := List.inj_on_of_nodup_map hnodup (List.mem_of_find?_eq_some hfind) h hsnd
    simp [carry, hfind, this]

theorem walks_satisfies (columns : Record TableColumns) (table : String) (carried : List String) :
    Satisfies (walks columns table carried) columns := by
  intro at_ entry hentry key hkey row hrow hfilled
  exact ⟨carry key row, .along hrow hentry hkey hfilled, fun pair hpair => carry_pair hpair⟩

/-- A contained policy set's keys lead from each table to the owner of each link. -/
theorem Contained.leads {columns : Record TableColumns} {models : List TableModel} (h : Contained columns models)
    (hT : T ∈ models) (hview : T.view = false) (hO : O ∈ models) (hi : T.chain[i]? = some link)
    (hs : O.scope = .dimension link.dimension key container) : LeadsToOwner columns T O link key := by
  have hfilled : ∀ link ∈ T.chain, named (chainColumns T) link.column = some link.column :=
    fun link hl => (named_eq_some).mpr ⟨List.mem_map_of_mem hl, rfl⟩
  obtain ⟨hchain, row, hrow, hkey, hinherited⟩ := h T hT hview String (walks columns T.name (chainColumns T))
    (walks_satisfies _ _ _) _ .start (fun link hl => by rw [hfilled link hl]; simp) i link hi O hO key container hs
  refine ⟨row, hrow, ?_, ?_⟩
  · rw [hkey]
    exact hfilled link (List.mem_of_getElem? hi)
  · intro inherited hin
    rw [hinherited inherited hin]
    rw [hchain] at hin
    exact hfilled inherited (List.mem_of_mem_drop hin)

/-! ## Contained policy sets -/

/-- Where a link is owned, there is a nearest owned one, no later. -/
theorem exists_nearest {models : List TableModel} (hO : O ∈ models) (hi : T.chain[i]? = some link)
    (hs : O.scope = .dimension link.dimension key container) : ∃ j ≤ i, ∃ O' link' key', Nearest models T O' j link' key' := by
  induction i using Nat.strong_induction_on generalizing O link key container with
  | _ i ih =>
    by_cases hfirst : ∀ j < i, ∀ link', T.chain[j]? = some link' → ∀ O' ∈ models, ∀ key' container',
        O'.scope ≠ .dimension link'.dimension key' container'
    · exact ⟨i, Nat.le_refl i, O, link, key, hO, hi, ⟨container, hs⟩, hfirst⟩
    · push Not at hfirst
      obtain ⟨j, hj, link', hj', O', hO', key', container', hs'⟩ := hfirst
      obtain ⟨k, hk, hnear⟩ := ih j hj hO' hj' hs'
      exact ⟨k, by omega, hnear⟩

section

variable {columns : Record TableColumns} {vocabulary : Vocabulary} {models : List TableModel}
  (accepted : Accepted columns vocabulary models)

include accepted

/-- The key `linkTables` found for a first link binds every row whose chain is filled, where
    it has no further columns. -/
theorem covering_row (hT : T ∈ models) (hO : O ∈ models) (hview : T.view = false) (hi : T.chain[0]? = some link)
    (hs : O.scope = .dimension link.dimension key container) (htight : Tight T O link key) (hdb : Satisfies db columns)
    (hrow : row ∈ db T.name) (hfilled : ∀ link ∈ T.chain, row link.column ≠ none) :
    ∃ owner ∈ db O.name, owner key = row link.column ∧ ∀ inherited ∈ O.chain, owner inherited.column = row inherited.column := by
  obtain ⟨rest, hchain⟩ : ∃ rest, T.chain = link :: rest := by
    cases hc : T.chain with
    | nil => rw [hc] at hi; cases hi
    | cons first rest => rw [hc] at hi; cases hi; exact ⟨rest, rfl⟩
  have hown : O.chain = rest := by rw [accepted.chain_past_owned hT hO hi hs, hchain]; rfl
  obtain ⟨foreignKey, hmem, htable, hcovers⟩ := accepted.covering_key hT hO hview hchain hs
  obtain ⟨entry, hentry, hkeys⟩ := accepted.listed_keys hT
  have hbound : ∀ column ∈ foreignKey.columns, row column ≠ none := by
    intro column hc
    obtain ⟨carried, hcarried, rfl⟩ := List.mem_map.mp (htight foreignKey hmem htable (by rw [hown]; exact hcovers) column hc)
    exact hfilled carried hcarried
  obtain ⟨owner, howner, hpairs⟩ := hdb T.name entry hentry foreignKey (hkeys ▸ hmem) row hrow hbound
  have hpair : ∀ pair ∈ coveredPairs link key rest, owner pair.2 = row pair.1 := by
    intro pair hp
    have := List.all_eq_true.mp hcovers pair hp
    exact hpairs pair (by simpa using this)
  refine ⟨owner, htable ▸ howner, hpair (link.column, key) List.mem_cons_self, ?_⟩
  intro inherited hin
  exact hpair (inherited.column, inherited.column) (List.mem_cons_of_mem _ (List.mem_map.mpr ⟨inherited, hown ▸ hin, rfl⟩))

/-- The row of the nearest owner, whichever way the keys bind it. -/
theorem nearest_row (hbound : Bound columns models) (hT : T ∈ models) (hview : T.view = false)
    (hnear : Nearest models T O i link key) (hdb : Satisfies db columns) (hrow : row ∈ db T.name)
    (hfilled : ∀ link ∈ T.chain, row link.column ≠ none) :
    ∃ owner ∈ db O.name, owner key = row link.column ∧ ∀ inherited ∈ O.chain, owner inherited.column = row inherited.column := by
  obtain ⟨container, hs⟩ := hnear.owns
  by_cases hchecked : i = 0 ∧ Tight T O link key
  · obtain ⟨rfl, htight⟩ := hchecked
    exact covering_row accepted hT hnear.mem hview hnear.at_ hs htight hdb hrow hfilled
  · obtain ⟨walked, hwalk, hkey, hinherited⟩ := hbound T hT hview O i link key hnear hchecked
    have hcarried : ∀ column ∈ chainColumns T, row column ≠ none := by
      intro column hc
      obtain ⟨link, hl, rfl⟩ := List.mem_map.mp hc
      exact hfilled link hl
    obtain ⟨owner, howner, hvalues⟩ := hwalk.realized hdb hrow hcarried
    exact ⟨owner, howner, hvalues key _ hkey, fun inherited hin => hvalues _ _ (hinherited inherited hin)⟩

/-- The induction is on the length of the chain: behind the nearest owner it is the owner's. -/
theorem agrees_of_bound (hbound : Bound columns models) (hT : T ∈ models) (hview : T.view = false) (hdb : Satisfies db columns)
    (hrow : row ∈ db T.name) (hfilled : ∀ link ∈ T.chain, row link.column ≠ none) : Agrees models T db row := by
  generalize hn : T.chain.length = n
  induction n using Nat.strong_induction_on generalizing T row with
  | _ n ih =>
    intro i link hi O hO key container hs
    refine ⟨accepted.chain_past_owned hT hO hi hs, ?_⟩
    obtain ⟨j, hj, O', link', key', hnear⟩ := exists_nearest hO hi hs
    obtain ⟨container', hs'⟩ := hnear.owns
    obtain ⟨owner, howner, hkey, hinherited⟩ := nearest_row accepted hbound hT hview hnear hdb hrow hfilled
    have hchain' : O'.chain = T.chain.drop (j + 1) := accepted.chain_past_owned hT hnear.mem hnear.at_ hs'
    by_cases heq : j = i
    · subst heq
      have hlink : link' = link := by
        have := hnear.at_
        rw [hi] at this
        cases this
        rfl
      subst hlink
      cases accepted.owner_unique hnear.mem hO hs' hs
      rw [hs] at hs'
      cases hs'
      exact ⟨owner, howner, hkey, hinherited⟩
    · have hlt : j < i := by omega
      have hlen : i < T.chain.length := (List.getElem?_eq_some_iff.mp hi).1
      -- The link stands in the nearest owner's chain too, and that row carries the same value there.
      have hi' : O'.chain[i - (j + 1)]? = some link := by
        rw [hchain', List.getElem?_drop, show j + 1 + (i - (j + 1)) = i by omega]
        exact hi
      have hfilled' : ∀ link ∈ O'.chain, owner link.column ≠ none := by
        intro link hl
        rw [hinherited link hl]
        exact hfilled link (List.mem_of_mem_drop (hchain' ▸ hl))
      obtain ⟨hpast, row', hrow', hkey', hrest⟩ := ih O'.chain.length (by rw [hchain', List.length_drop]; omega) hnear.mem
        (accepted.owner_not_view hnear.mem hs') howner hfilled' rfl _ link hi' O hO key container hs
      refine ⟨row', hrow', ?_, ?_⟩
      · rw [hkey', hinherited link (List.mem_of_getElem? hi')]
      · intro inherited hin
        rw [hrest inherited hin, hinherited inherited (List.mem_of_mem_drop (hpast ▸ hin))]

end

/-- Whether the rows of an accepted policy set agree with their owners is whether the keys lead
    to the nearest owner where `linkTables` did not see to it. -/
theorem contained_iff {columns : Record TableColumns} {policies : Record TablePolicy} {vocabulary : Vocabulary}
    {models : List TableModel} (h : readTables columns policies vocabulary = .ok models) :
    Contained columns models ↔ Bound columns models := by
  obtain ⟨parsed, ⟨accepted⟩⟩ := readTables_accepted h
  constructor
  · intro hcontained T hT hview O i link key hnear _
    obtain ⟨container, hs⟩ := hnear.owns
    exact hcontained.leads hT hview hnear.mem hnear.at_ hs
  · intro hbound T hT hview V db hdb row hrow hfilled
    exact agrees_of_bound accepted hbound hT hview hdb hrow hfilled

/-- Where every link is owned and no covering key has further columns, nothing is left to the
    declared keys. -/
theorem bound_of_owned {columns : Record TableColumns} {models : List TableModel}
    (howned : ∀ T ∈ models, ∀ link ∈ T.chain, ∃ O ∈ models, ∃ key container, O.scope = .dimension link.dimension key container)
    (htight : ∀ T ∈ models, ∀ O ∈ models, ∀ link ∈ T.chain, ∀ key container,
      O.scope = .dimension link.dimension key container → Tight T O link key) : Bound columns models := by
  intro T hT _ O i link key hnear hunchecked
  obtain ⟨container, hs⟩ := hnear.owns
  have hlink : link ∈ T.chain := List.mem_of_getElem? hnear.at_
  exfalso
  apply hunchecked
  refine ⟨?_, htight T hT O hnear.mem link hlink key container hs⟩
  by_contra hne
  have hlen : i < T.chain.length := (List.getElem?_eq_some_iff.mp hnear.at_).1
  have h0 : T.chain[0]? = some (T.chain.get ⟨0, by omega⟩) := by simp
  obtain ⟨O', hO', key', container', hs'⟩ := howned T hT _ (List.mem_of_getElem? h0)
  exact hnear.first 0 (by omega) _ h0 O' hO' key' container' hs'

/-! ## Policy sets -/

def readActions : ActionsInput := { read := .one "read" }

def dimensionPolicy (dimension : String) : TablePolicy :=
  { scope := .dimension dimension none none, actions := readActions }

def ownedDimension (O : TableModel) : Option String :=
  match O.scope with
  | .dimension dimension _ _ => some dimension
  | _ => none

def modelsOf (columns : Record TableColumns) (policies : Record TablePolicy) (vocabulary : Vocabulary) : List TableModel :=
  (readTables columns policies vocabulary).toOption.getD []

theorem readTables_modelsOf {columns : Record TableColumns} {policies : Record TablePolicy} {vocabulary : Vocabulary}
    (h : (readTables columns policies vocabulary).isOk = true) :
    readTables columns policies vocabulary = .ok (modelsOf columns policies vocabulary) := by
  unfold modelsOf
  cases hr : readTables columns policies vocabulary with
  | error message => rw [hr] at h; cases h
  | ok models => rfl

/-- Tasks in projects in organizations, each a table with its key. -/
def tasksVocabulary : Vocabulary :=
  ⟨[⟨"org", none⟩, ⟨"project", some "org"⟩, ⟨"task", some "project"⟩].toAList, ["read"]⟩

def tasksColumns : Record TableColumns :=
  [⟨"orgs", { columns := ["id"] }⟩,
    ⟨"projects", { columns := ["id", "org_id"], foreignKeys := [⟨["org_id"], "orgs", ["id"], by decide⟩] }⟩,
    ⟨"tasks", { columns := ["id", "project_id", "org_id"],
                foreignKeys := [⟨["project_id", "org_id"], "projects", ["id", "org_id"], by decide⟩] }⟩].toAList

def tasksPolicies : Record TablePolicy :=
  [⟨"orgs", dimensionPolicy "org"⟩, ⟨"projects", dimensionPolicy "project"⟩, ⟨"tasks", dimensionPolicy "task"⟩].toAList

def tasksModels : List TableModel := modelsOf tasksColumns tasksPolicies tasksVocabulary

theorem owned_tasks_contained :
    readTables tasksColumns tasksPolicies tasksVocabulary = .ok tasksModels ∧ Contained tasksColumns tasksModels := by
  have hread : readTables tasksColumns tasksPolicies tasksVocabulary = .ok tasksModels :=
    readTables_modelsOf (by decide +kernel)
  have howned : ∀ T ∈ tasksModels, ∀ link ∈ T.chain, ∃ O ∈ tasksModels,
      ownedDimension O = some link.dimension := by decide +kernel
  have htight : ∀ T ∈ tasksModels, ∀ O ∈ tasksModels, ∀ foreignKey ∈ T.foreignKeys, foreignKey.table = O.name →
      ∀ column ∈ foreignKey.columns, column ∈ chainColumns T := by decide +kernel
  refine ⟨hread, (contained_iff hread).mpr (bound_of_owned ?_ ?_)⟩
  · intro T hT link hl
    obtain ⟨O, hO, howns⟩ := howned T hT link hl
    cases hs : O.scope with
    | dimension dimension key container =>
      rw [ownedDimension, hs] at howns
      cases howns
      exact ⟨O, hO, key, container, hs⟩
    | child _ _ _ _ | reference _ | app _ _ => rw [ownedDimension, hs] at howns; cases howns
  · intro T hT O hO link _ key container _ foreignKey hmem htable _ column hc
    exact htight T hT O hO foreignKey hmem htable column hc

/-- Nobody owns `team`, so nothing binds a project's organization. -/
def teamsVocabulary : Vocabulary :=
  ⟨[⟨"org", none⟩, ⟨"team", some "org"⟩, ⟨"project", some "team"⟩].toAList, ["read"]⟩

def teamsColumns : Record TableColumns :=
  [⟨"orgs", { columns := ["id"] }⟩, ⟨"projects", { columns := ["id", "team_id", "org_id"] }⟩].toAList

def teamsPolicies : Record TablePolicy := [⟨"orgs", dimensionPolicy "org"⟩, ⟨"projects", dimensionPolicy "project"⟩].toAList

def teamsModels : List TableModel := modelsOf teamsColumns teamsPolicies teamsVocabulary

/-- One project with every column filled, and nothing else. -/
def strayProject : Database String := fun table => if table = "projects" then {some} else ∅

theorem an_unowned_team : readTables teamsColumns teamsPolicies teamsVocabulary = .ok teamsModels ∧
    ¬ Contained teamsColumns teamsModels := by
  refine ⟨readTables_modelsOf (by decide +kernel), ?_⟩
  intro hcontained
  obtain ⟨T, hT, hname, hview, hchain⟩ : ∃ T ∈ teamsModels, T.name = "projects" ∧ T.view = false ∧
      T.chain = [⟨"team", "team_id"⟩, ⟨"org", "org_id"⟩] := by decide +kernel
  obtain ⟨O, hO, hname', hscope⟩ : ∃ O ∈ teamsModels, O.name = "orgs" ∧ O.scope = .dimension "org" "id" none := by
    decide +kernel
  have hkeys : ∀ entry ∈ teamsColumns.entries, entry.2.foreignKeys = [] := by decide
  have hdb : Satisfies strayProject teamsColumns := by
    intro table entry hentry key hkey
    rw [hkeys _ hentry] at hkey
    cases hkey
  obtain ⟨_, owner, howner, _⟩ := hcontained T hT hview String strayProject hdb some (by simp [strayProject, hname])
    (by simp) 1 ⟨"org", "org_id"⟩ (by rw [hchain]; rfl) O hO "id" none hscope
  simp [strayProject, hname'] at howner

/-- A project's key to its organization has a region, which a project may leave null. -/
def regionsVocabulary : Vocabulary := ⟨[⟨"org", none⟩, ⟨"project", some "org"⟩].toAList, ["read"]⟩

def regionsColumns : Record TableColumns :=
  [⟨"orgs", { columns := ["id", "region"] }⟩,
    ⟨"projects", { columns := ["id", "org_id", "region"],
                   foreignKeys := [⟨["org_id", "region"], "orgs", ["id", "region"], by decide⟩] }⟩].toAList

def regionsModels : List TableModel := modelsOf regionsColumns teamsPolicies regionsVocabulary

def regionless : Database String := fun table =>
  if table = "projects" then {fun column => if column = "region" then none else some column} else ∅

theorem a_region_left_null : readTables regionsColumns teamsPolicies regionsVocabulary = .ok regionsModels ∧
    ¬ Contained regionsColumns regionsModels := by
  refine ⟨readTables_modelsOf (by decide +kernel), ?_⟩
  intro hcontained
  obtain ⟨T, hT, hname, hview, hchain⟩ : ∃ T ∈ regionsModels, T.name = "projects" ∧ T.view = false ∧
      T.chain = [⟨"org", "org_id"⟩] := by decide +kernel
  obtain ⟨O, hO, hname', hscope⟩ : ∃ O ∈ regionsModels, O.name = "orgs" ∧ O.scope = .dimension "org" "id" none := by
    decide +kernel
  have hkeys : ∀ entry ∈ regionsColumns.entries, ∀ key ∈ entry.2.foreignKeys, entry.1 = "projects" ∧ "region" ∈ key.columns := by
    decide
  have hdb : Satisfies regionless regionsColumns := by
    intro table entry hentry key hkey row hrow hfilled
    obtain ⟨rfl, hregion⟩ := hkeys _ hentry key hkey
    have : row = fun column => if column = "region" then none else some column := by simpa [regionless] using hrow
    exact absurd (by simp [this]) (hfilled "region" hregion)
  obtain ⟨_, owner, howner, _⟩ := hcontained T hT hview String regionless hdb
    (fun column => if column = "region" then none else some column) (by simp [regionless, hname])
    (by simp [hchain]) 0 ⟨"org", "org_id"⟩ (by rw [hchain]; rfl) O hO "id" none hscope
  simp [regionless, hname'] at howner

end Fabrika.Db.Containment
