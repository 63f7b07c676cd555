/-
  Fabrika.Platform.ManifestTracks — what each change does to the manifest and to the catalog.

  `Tracks` is what holds after every statement: what exists is listed, what is listed exists or
  is stale, what is attached to a relation stands on one, and each routine's name has the one
  signature `refuseOverloads` remembers. One lemma for each thing a statement can do keeps it,
  from what that thing needs of the catalog before.
-/

import Fabrika.Platform.MigrationManifest

namespace Fabrika.Platform.Migrations

/-! ## Keys -/

/-- The first two letters of a kind tell it. -/
theorem DatabaseObjectKind.take_inj {kind kind' : DatabaseObjectKind} (h : kind.text.take 2 = kind'.text.take 2) :
    kind = kind' := by
  cases kind <;> cases kind' <;> first | rfl | exact absurd h (by decide)

theorem DatabaseObjectKind.text_append_inj {kind kind' : DatabaseObjectKind} {rest rest' : List Char}
    (h : kind.text ++ rest = kind'.text ++ rest') :
    kind = kind' ∧ rest = rest' := by
  have hlong : ∀ kind : DatabaseObjectKind, 2 ≤ kind.text.length := by
    intro kind
    cases kind <;> decide
  have hstart := congrArg (List.take 2) h
  rw [List.take_append_of_le_length (hlong kind), List.take_append_of_le_length (hlong kind')] at hstart
  obtain rfl := take_inj hstart
  exact ⟨rfl, List.append_cancel_left h⟩

theorem objectKey_inj {one other : DatabaseObject} : objectKey one = objectKey other ↔ one = other := by
  refine ⟨fun h => ?_, congrArg objectKey⟩
  obtain ⟨hkind, hname⟩ := DatabaseObjectKind.text_append_inj h
  cases one
  cases other
  rw [DatabaseObject.mk.injEq]
  exact ⟨hkind, List.tail_eq_of_cons_eq hname⟩

variable {kind kind' : RoutineKind} {args : List Char}

theorem RoutineKind.object_inj (h : kind.object = kind'.object) : kind = kind' := by
  cases kind <;> cases kind' <;> first | rfl | cases h

theorem argsText_inj {args' : List Char} (h : argsText kind args = argsText kind' args') : kind = kind' ∧ args = args' := by
  simp only [argsText, List.append_assoc] at h
  obtain ⟨hkind, hrest⟩ := DatabaseObjectKind.text_append_inj h
  exact ⟨RoutineKind.object_inj hkind, List.append_cancel_right (List.append_cancel_left hrest)⟩

/-- The manifest's name for an entity; a table has none. -/
def Entity.key : Entity → Option DatabaseObject
  | .relation .table _ => none
  | .relation (.view kind) name => some ⟨kind.object, name⟩
  | .routine kind name _ => some ⟨kind.object, name⟩
  | .attached kind table name => some ⟨kind.object, dotted table name⟩

/-! ## What a change does to the manifest -/

section
variable {objects : List DatabaseObject} {object other old new : DatabaseObject}

theorem mem_setObject : other ∈ setObject objects object ↔ other = object ∨ other ∈ objects := by
  unfold setObject
  by_cases hkey : (objects.any fun entry => objectKey entry = objectKey object) = true
  · have hmem : object ∈ objects := by
      obtain ⟨entry, hentry, heq⟩ := List.any_eq_true.mp hkey
      rwa [(objectKey_inj).mp (of_decide_eq_true heq)] at hentry
    have hmap : (objects.map fun entry => if objectKey entry = objectKey object then object else entry) = objects := by
      conv_rhs => rw [← List.map_id objects]
      refine List.map_congr_left fun entry _ => ?_
      by_cases heq : objectKey entry = objectKey object
      · rw [if_pos heq]
        exact ((objectKey_inj).mp heq).symm
      · rw [if_neg heq]
        rfl
    rw [if_pos hkey, hmap]
    constructor
    · exact Or.inr
    · rintro (rfl | h)
      · exact hmem
      · exact h
  · rw [if_neg hkey, List.mem_append, List.mem_singleton, or_comm]

theorem mem_deleteObject : other ∈ deleteObject objects object ↔ other ∈ objects ∧ other ≠ object := by
  unfold deleteObject
  rw [List.mem_filter, decide_eq_true_eq, Ne, objectKey_inj]

theorem mem_rename :
    other ∈ applyChange objects (.rename old new) ↔ other ∈ objects ∧ other ≠ old ∨ old ∈ objects ∧ other = new := by
  have hany : (objects.any fun entry => objectKey entry = objectKey old) = true ↔ old ∈ objects := by
    rw [List.any_eq_true]
    constructor
    · rintro ⟨entry, hentry, heq⟩
      rwa [(objectKey_inj).mp (of_decide_eq_true heq)] at hentry
    · exact fun h => ⟨old, h, decide_eq_true rfl⟩
  rw [applyChange]
  by_cases hold : old ∈ objects
  · rw [if_pos (hany.mpr hold), mem_setObject, mem_deleteObject, or_comm]
    exact or_congr_right ⟨fun h => ⟨hold, h⟩, And.right⟩
  · rw [if_neg (fun h => hold (hany.mp h))]
    constructor
    · exact fun h => .inl ⟨h, fun heq => hold (heq ▸ h)⟩
    · rintro (h | h)
      · exact h.1
      · exact absurd h.1 hold

theorem mem_foldl_deleteObject {gone : List DatabaseObject} :
    other ∈ gone.foldl deleteObject objects ↔ other ∈ objects ∧ other ∉ gone := by
  induction gone generalizing objects with
  | nil => simp
  | cons entry gone ih =>
    rw [List.foldl_cons, ih, mem_deleteObject, List.mem_cons, not_or, and_assoc]

theorem mem_dropTable {table : Name} : other ∈ applyChange objects (.dropTable table) ↔ other ∈ objects ∧
    onTable table other = false := by
  rw [applyChange, mem_foldl_deleteObject, List.mem_filter]
  constructor
  · intro ⟨hmem, hnot⟩
    exact ⟨hmem, Bool.eq_false_iff.mpr fun hon => hnot ⟨hmem, hon⟩⟩
  · intro ⟨hmem, hon⟩
    refine ⟨hmem, fun h => ?_⟩
    rw [hon] at h
    cases h.2

/-- Objects moved one by one all move, where no new name is one of those still to move. -/
theorem mem_foldl_move {moved : List DatabaseObject} {move : DatabaseObject → DatabaseObject}
    (hapart : ∀ entry ∈ moved, move entry ∉ moved) :
    other ∈ moved.foldl (fun objects entry => setObject (deleteObject objects entry) (move entry)) objects
      ↔ other ∈ objects ∧ other ∉ moved ∨ ∃ entry ∈ moved, other = move entry := by
  induction moved generalizing objects with
  | nil => simp
  | cons entry moved ih =>
    have hlater : ∀ later ∈ moved, move later ∉ moved := fun later hmem hin =>
      hapart later (List.mem_cons_of_mem _ hmem) (List.mem_cons_of_mem _ hin)
    rw [List.foldl_cons, ih hlater, mem_setObject, mem_deleteObject]
    constructor
    · rintro (⟨rfl | ⟨hmem, hne⟩, hnot⟩ | ⟨later, hlater, rfl⟩)
      · exact .inr ⟨entry, List.mem_cons_self, rfl⟩
      · exact .inl ⟨hmem, List.not_mem_cons_of_ne_of_not_mem hne hnot⟩
      · exact .inr ⟨later, List.mem_cons_of_mem _ hlater, rfl⟩
    · rintro (⟨hmem, hnot⟩ | ⟨later, hlater, rfl⟩)
      · obtain ⟨hne, hnot⟩ := List.ne_and_not_mem_of_not_mem_cons hnot
        exact .inl ⟨.inr ⟨hmem, hne⟩, hnot⟩
      · obtain rfl | hlater := List.mem_cons.mp hlater
        · exact .inl ⟨.inl rfl, fun hin => hapart later List.mem_cons_self (List.mem_cons_of_mem _ hin)⟩
        · exact .inr ⟨later, hlater, rfl⟩

theorem mem_renameTable {table name : Name}
    (hapart : ∀ entry ∈ objects, onTable table entry = true → onTable table (renamedOnTable table name entry) = false) :
    other ∈ applyChange objects (.renameTable table name)
      ↔ other ∈ objects ∧ onTable table other = false ∨ ∃ entry ∈ objects, onTable table entry = true ∧
      other = renamedOnTable table name entry := by
  rw [applyChange, mem_foldl_move, List.mem_filter]
  · constructor
    · rintro (⟨hmem, hnot⟩ | ⟨entry, hentry, rfl⟩)
      · exact .inl ⟨hmem, Bool.eq_false_iff.mpr fun hon => hnot ⟨hmem, hon⟩⟩
      · exact .inr ⟨entry, (List.mem_filter.mp hentry).1, (List.mem_filter.mp hentry).2, rfl⟩
    · rintro (⟨hmem, hon⟩ | ⟨entry, hentry, hon, rfl⟩)
      · refine .inl ⟨hmem, fun h => ?_⟩
        rw [hon] at h
        cases h.2
      · exact .inr ⟨entry, List.mem_filter.mpr ⟨hentry, hon⟩, rfl⟩
  · intro entry hentry hin
    obtain ⟨hmem, hon⟩ := List.mem_filter.mp hentry
    have hoff := hapart entry hmem hon
    rw [(List.mem_filter.mp hin).2] at hoff
    cases hoff

end

/-! ## The catalog's entities -/

section
variable {signature : List Char → List Char} {c : Catalog}

variable {name table new old : Name} {entity : Entity} {object : DatabaseObject} {kinds : RelationKind → Bool}
variable {word : RoutineWord}

theorem hasRelation_iff : c.hasRelation name = true ↔ ∃ kind, .relation kind name ∈ c.live := by
  unfold Catalog.hasRelation
  rw [List.any_eq_true]
  constructor
  · rintro ⟨entity, hmem, hname⟩
    match entity, hmem, hname with
    | .relation kind other, hmem, hname =>
      rw [of_decide_eq_true hname] at hmem
      exact ⟨kind, hmem⟩
  · rintro ⟨kind, hmem⟩
    exact ⟨_, hmem, decide_eq_true rfl⟩

theorem mem_routinesOf {args : Option (List Char)} {own : List Char} :
    (kind, own) ∈ routinesOf signature c name args ↔ .routine kind name own ∈ c.live ∧ ∀ a ∈ args,
    signature a = signature own := by
  unfold routinesOf
  rw [List.mem_filterMap]
  constructor
  · rintro ⟨entity, hmem, hfound⟩
    match entity, hmem, hfound with
    | .routine other otherName otherArgs, hmem, hfound =>
      dsimp only at hfound
      by_cases hcond : otherName = name ∧ ∀ a ∈ args, signature a = signature otherArgs
      · rw [if_pos hcond] at hfound
        cases hfound
        obtain ⟨rfl, hargs⟩ := hcond
        exact ⟨hmem, hargs⟩
      · rw [if_neg hcond] at hfound
        cases hfound
  · rintro ⟨hmem, hargs⟩
    exact ⟨_, hmem, if_pos ⟨rfl, hargs⟩⟩

/-! ## What holds after every statement -/

/-- The manifest and the remembered signatures follow the catalog. -/
structure Tracks (c : Catalog) (objects : List DatabaseObject) (routines : Routines) : Prop where
  covers : ∀ entity ∈ c.live, ∀ object, entity.key = some object → object ∈ objects
  sound : ∀ object ∈ objects, ∃ entity, (entity ∈ c.live ∨ entity ∈ c.stale) ∧ entity.key = some object
  stands : ∀ kind table name, .attached kind table name ∈ c.live → c.hasRelation table = true
  tracked : ∀ kind name args, .routine kind name args ∈ c.live → routines.get name = some (argsText kind args)

theorem tracks_empty : Tracks .empty [] [] where
  covers := fun _ h => nomatch h
  sound := fun _ h => nomatch h
  stands := fun _ _ _ h => nomatch h
  tracked := fun _ _ _ h => nomatch h

variable {objects : List DatabaseObject} {routines : Routines}

/-- A routine is known by its name. -/
theorem Tracks.routine_unique (h : Tracks c objects routines) {args' : List Char} (hone : .routine kind name args ∈ c.live)
    (hother : .routine kind' name args' ∈ c.live) : kind = kind' ∧ args = args' := by
  have heq := h.tracked kind name args hone
  rw [h.tracked kind' name args' hother, Option.some.injEq] at heq
  obtain ⟨hkind, hargs⟩ := argsText_inj heq
  exact ⟨hkind.symm, hargs.symm⟩

/-- What a `CASCADE` takes stays listed at most. -/
theorem Tracks.cascade (h : Tracks c objects routines) (dependents : List Entity) :
    Tracks (c.cascade dependents) objects routines where
  covers := fun entity hmem => h.covers entity (List.mem_filter.mp hmem).1
  sound := by
    intro object hobject
    obtain ⟨entity, hmem | hmem, hkey⟩ := h.sound object hobject
    · refine ⟨entity, ?_, hkey⟩
      by_cases htaken : Catalog.takenWith dependents entity = true
      · exact .inr (List.mem_append_right _ (List.mem_filter.mpr ⟨hmem, htaken⟩))
      · exact .inl (List.mem_filter.mpr ⟨hmem, by simp [htaken]⟩)
    · exact ⟨entity, .inr (List.mem_append_left _ hmem), hkey⟩
  stands := by
    intro kind table name hmem
    obtain ⟨hmem, hkept⟩ := List.mem_filter.mp hmem
    obtain ⟨relation, hrelation⟩ := (hasRelation_iff).mp (h.stands kind table name hmem)
    refine (hasRelation_iff).mpr ⟨relation, List.mem_filter.mpr ⟨hrelation, ?_⟩⟩
    -- A relation that is taken takes what is attached to it.
    rw [Bool.not_eq_true'] at hkept ⊢
    unfold Catalog.takenWith at hkept ⊢
    rw [List.any_eq_false] at hkept ⊢
    intro other hother htaken
    refine hkept other hother ?_
    match other, htaken with
    | .relation kind' name', htaken =>
      have hname : name' = table := by
        simp only [Bool.or_eq_true, Bool.and_eq_true, decide_eq_true_eq, Entity.relation.injEq, Catalog.belongsTo] at htaken
        obtain h | h := htaken
        · exact h.2
        · exact h.2.symm
      simp [hname, Catalog.belongsTo]
  tracked := fun kind name args hmem => h.tracked kind name args (List.mem_filter.mp hmem).1

/-! ## Names and keys -/

theorem key_view {kind : ViewKind} (h : entity.key = some ⟨kind.object, name⟩) : entity = .relation (.view kind) name := by
  match entity, h with
  | .relation (.view other) name', h =>
    cases kind <;> cases other <;> simp [Entity.key, ViewKind.object] at h ⊢
    all_goals exact h
  | .routine other _ _, h => cases kind <;> cases other <;> simp [Entity.key, ViewKind.object, RoutineKind.object] at h
  | .attached other _ _, h => cases kind <;> cases other <;> simp [Entity.key, ViewKind.object, OnTableKind.object] at h

theorem key_routine (h : entity.key = some ⟨kind.object, name⟩) : ∃ args, entity = .routine kind name args := by
  match entity, h with
  | .relation (.view other) _, h => cases kind <;> cases other <;> simp [Entity.key, ViewKind.object, RoutineKind.object] at h
  | .routine other name' args, h =>
    refine ⟨args, ?_⟩
    cases kind <;> cases other <;> simp [Entity.key, RoutineKind.object] at h ⊢
    all_goals exact h
  | .attached other _ _, h => cases kind <;> cases other <;> simp [Entity.key, RoutineKind.object, OnTableKind.object] at h

theorem key_attached {kind : OnTableKind} {text : Name} (h : entity.key = some ⟨kind.object, text⟩) :
    ∃ table name, entity = .attached kind table name ∧ dotted table name = text := by
  match entity, h with
  | .relation (.view other) _, h => cases kind <;> cases other <;> simp [Entity.key, ViewKind.object, OnTableKind.object] at h
  | .routine other _ _, h => cases kind <;> cases other <;> simp [Entity.key, RoutineKind.object, OnTableKind.object] at h
  | .attached other table name, h =>
    refine ⟨table, name, ?_⟩
    cases kind <;> cases other <;> simp [Entity.key, OnTableKind.object] at h ⊢
    all_goals exact h

/-- An object on a table's text is one on some table whose name the text begins with. -/
theorem key_onTable (hkey : entity.key = some object) (hon : onTable table object = true) :
    ∃ kind other name, entity = .attached kind other name ∧ object = ⟨kind.object, dotted other name⟩ ∧
    dotted table [] <+: dotted other name := by
  unfold onTable at hon
  rw [Bool.and_eq_true, List.isPrefixOf_iff_prefix] at hon
  match entity, hkey with
  | .relation (.view kind) name, hkey =>
    cases hkey
    cases kind <;> exact absurd hon.1 Bool.false_ne_true
  | .routine kind name args, hkey =>
    cases hkey
    cases kind <;> exact absurd hon.1 Bool.false_ne_true
  | .attached kind other name, hkey =>
    cases hkey
    exact ⟨kind, other, name, rfl, rfl, hon.2⟩

theorem dotted_prefix (table name : Name) : dotted table [] <+: dotted table name := ⟨name, by simp [dotted]⟩

theorem onTable_dotted (kind : OnTableKind) (table name : Name) : onTable table ⟨kind.object, dotted table name⟩ = true := by
  unfold onTable
  rw [Bool.and_eq_true, List.isPrefixOf_iff_prefix]
  exact ⟨by cases kind <;> rfl, dotted_prefix table name⟩

theorem renamedOnTable_dotted (kind : DatabaseObjectKind) (old new name : Name) :
    renamedOnTable old new ⟨kind, dotted old name⟩ = ⟨kind, dotted new name⟩ := by
  simp [renamedOnTable, dotted]

theorem get_set (routines : Routines) (name other : Name) (args : List Char) :
    (routines.set name args).get other = if other = name then some args else routines.get other := by
  unfold Routines.set Routines.get Routines.delete
  by_cases heq : name = other
  · simp [heq]
  · have hne : ¬other = name := fun h => heq h.symm
    rw [List.find?_cons_of_neg (by simpa using heq), List.find?_filter, if_neg hne]
    congr 1
    refine congrArg (List.find? · routines) (funext fun entry => ?_)
    by_cases hentry : entry.1 = other
    · simp [hentry, hne]
    · simp [hentry]

theorem get_delete (routines : Routines) (name other : Name) :
    (routines.delete name).get other = if other = name then none else routines.get other := by
  unfold Routines.get Routines.delete
  by_cases heq : other = name
  · rw [if_pos heq, heq, Option.map_eq_none_iff, List.find?_eq_none]
    intro entry hentry
    simpa using (List.mem_filter.mp hentry).2
  · rw [List.find?_filter, if_neg heq]
    congr 1
    refine congrArg (List.find? · routines) (funext fun entry => ?_)
    by_cases hentry : entry.1 = other
    · simp [hentry, heq]
    · simp [hentry]

/-! ## A create -/

/-- The manifest with an entity's object, where it has one. -/
def listed (objects : List DatabaseObject) (entity : Entity) : List DatabaseObject :=
  match entity.key with
  | none => objects
  | some object => setObject objects object

theorem mem_listed : object ∈ listed objects entity ↔ entity.key = some object ∨ object ∈ objects := by
  unfold listed
  cases hkey : entity.key with
  | none => simp
  | some own =>
    rw [mem_setObject, Option.some.injEq]
    exact or_congr_left ⟨Eq.symm, Eq.symm⟩

theorem Tracks.listed (h : Tracks c objects routines) {entity : Entity} (hmem : entity ∈ c.live ∨ entity ∈ c.stale) :
    Tracks c (listed objects entity) routines where
  covers := fun other hother object hkey => (mem_listed).mpr (.inr (h.covers other hother object hkey))
  sound := by
    intro object hobject
    obtain hkey | hobject := (mem_listed).mp hobject
    · exact ⟨entity, hmem, hkey⟩
    · exact h.sound object hobject
  stands := h.stands
  tracked := h.tracked

section
variable (h : Tracks c objects routines)
include h

theorem Tracks.addStale (entity : Entity) : Tracks { c with stale := c.stale ++ [entity] } objects routines where
  covers := h.covers
  sound := by
    intro object hobject
    obtain ⟨other, hmem, hkey⟩ := h.sound object hobject
    exact ⟨other, hmem.imp id (List.mem_append_left _), hkey⟩
  stands := h.stands
  tracked := h.tracked

theorem Tracks.add (hstands : ∀ kind table name, entity = .attached kind table name → c.hasRelation table = true)
    (htracked : ∀ kind name args, entity = .routine kind name args → routines.get name = some (argsText kind args)) :
    Tracks (c.add entity) (Migrations.listed objects entity) routines where
  covers := by
    intro other hother object hkey
    obtain hother | hother := List.mem_append.mp hother
    · exact (mem_listed).mpr (.inr (h.covers other hother object hkey))
    · rw [List.mem_singleton] at hother
      rw [hother] at hkey
      exact (mem_listed).mpr (.inl hkey)
  sound := by
    intro object hobject
    obtain hkey | hobject := (mem_listed).mp hobject
    · exact ⟨entity, .inl (List.mem_append_right _ (List.mem_singleton_self _)), hkey⟩
    · obtain ⟨other, hmem, hkey⟩ := h.sound object hobject
      by_cases heq : other = entity
      · exact ⟨other, .inl (List.mem_append_right _ (List.mem_singleton.mpr heq)), hkey⟩
      · exact ⟨other, hmem.imp (List.mem_append_left _) fun hstale => List.mem_filter.mpr ⟨hstale, decide_eq_true heq⟩, hkey⟩
  stands := by
    intro kind table name hmem
    have hstood : c.hasRelation table = true := by
      obtain hmem | hmem := List.mem_append.mp hmem
      · exact h.stands kind table name hmem
      · exact hstands kind table name (List.mem_singleton.mp hmem).symm
    obtain ⟨relation, hrelation⟩ := (hasRelation_iff).mp hstood
    exact (hasRelation_iff).mpr ⟨relation, List.mem_append_left _ hrelation⟩
  tracked := by
    intro kind name args hmem
    obtain hmem | hmem := List.mem_append.mp hmem
    · exact h.tracked kind name args hmem
    · exact htracked kind name args (List.mem_singleton.mp hmem).symm

/-- A signature remembered that the name has already, or that no routine of the name has. -/
theorem Tracks.remember (hsame : ∀ own, routines.get name = some own → own = args) :
    Tracks c objects (routines.set name args) where
  covers := h.covers
  sound := h.sound
  stands := h.stands
  tracked := by
    intro kind other own hmem
    rw [get_set]
    by_cases heq : other = name
    · rw [if_pos heq]
      have hown := h.tracked kind other own hmem
      rw [heq] at hown
      rw [hsame _ hown]
    · rw [if_neg heq]
      exact h.tracked kind other own hmem

/-! ## A rename -/

theorem Tracks.stands_moveRelation (hall : ∀ kind name, .attached kind old name ∈ c.live → ∀ relation, kinds relation = true)
    {kind : OnTableKind} (hmem : .attached kind table name ∈ c.live.map (Catalog.moveRelation kinds old new)) :
    (c.rename (Catalog.moveRelation kinds old new)).hasRelation table = true := by
  obtain ⟨before, hbefore, heq⟩ := List.mem_map.mp hmem
  match before, hbefore, heq with
  | .attached other relation own, hbefore, heq =>
    cases heq
    obtain ⟨stood, hstood⟩ := (hasRelation_iff).mp (h.stands _ _ _ hbefore)
    refine (hasRelation_iff).mpr ⟨stood, List.mem_map.mpr ⟨_, hstood, ?_⟩⟩
    by_cases hold : relation = old
    · subst hold
      rw [Catalog.moveRelation, if_pos ⟨hall _ _ hbefore stood, rfl⟩, if_pos rfl]
    · rw [Catalog.moveRelation, if_neg (fun both => hold both.2), if_neg hold]

theorem Tracks.tracked_moveRelation (hmem : .routine kind name args ∈ c.live.map (Catalog.moveRelation kinds old new)) :
    routines.get name = some (argsText kind args) := by
  obtain ⟨before, hbefore, heq⟩ := List.mem_map.mp hmem
  match before, hbefore, heq with
  | .routine .., hbefore, heq =>
    cases heq
    exact h.tracked _ _ _ hbefore

theorem Tracks.renameTable
    (hbegins : ∀ kind other name, .attached kind other name ∈ c.live ++ c.stale → dotted table [] <+: dotted other name →
      other = table)
    (hapart : ∀ kind name, .attached kind table name ∈ c.live ++ c.stale → ¬dotted table [] <+: dotted new name)
    (hview : ∀ kind, .relation (.view kind) table ∉ c.live) :
    Tracks (c.rename (Catalog.moveRelation (fun _ => true) table new)) (applyChange objects (.renameTable table new))
    routines := by
  have hfound : ∀ entry ∈ objects, onTable table entry = true → ∃ kind name, .attached kind table name ∈ c.live ++ c.stale
      ∧ entry = ⟨kind.object, dotted table name⟩ := by
    intro entry hentry hon
    obtain ⟨entity, hmem, hkey⟩ := h.sound entry hentry
    obtain ⟨kind, other, name, rfl, rfl, hprefix⟩ := key_onTable hkey hon
    obtain rfl := hbegins kind other name (List.mem_append.mpr hmem) hprefix
    exact ⟨kind, name, List.mem_append.mpr hmem, rfl⟩
  have hoff : ∀ entry ∈ objects, onTable table entry = true → onTable table (renamedOnTable table new entry) = false := by
    intro entry hentry hon
    obtain ⟨kind, name, hmem, rfl⟩ := hfound entry hentry hon
    rw [renamedOnTable_dotted, Bool.eq_false_iff]
    intro hon'
    unfold onTable at hon'
    rw [Bool.and_eq_true, List.isPrefixOf_iff_prefix] at hon'
    exact hapart kind name hmem hon'.2
  refine ⟨fun entity hentity object hkey => ?_, fun object hobject => ?_, fun kind name own hmem => ?_,
    fun kind name args hmem => ?_⟩
  · obtain ⟨before, hbefore, rfl⟩ := List.mem_map.mp hentity
    rw [mem_renameTable hoff]
    match before, hbefore, hkey with
    | .relation (.view kind) name, hbefore, hkey =>
      have hne : name ≠ table := fun heq => hview kind (heq ▸ hbefore)
      rw [Catalog.moveRelation, if_neg (fun heq => hne heq.2)] at hkey
      refine .inl ⟨h.covers _ hbefore object hkey, Bool.eq_false_iff.mpr fun hon => ?_⟩
      obtain ⟨_, _, _, hattached, -⟩ := key_onTable hkey hon
      cases hattached
    | .routine kind name args, hbefore, hkey =>
      refine .inl ⟨h.covers _ hbefore object hkey, Bool.eq_false_iff.mpr fun hon => ?_⟩
      obtain ⟨_, _, _, hattached, -⟩ := key_onTable hkey hon
      cases hattached
    | .attached kind other name, hbefore, hkey =>
      by_cases heq : other = table
      · subst heq
        rw [Catalog.moveRelation, if_pos rfl] at hkey
        cases hkey
        exact .inr ⟨_, h.covers _ hbefore _ rfl, onTable_dotted kind other name, (renamedOnTable_dotted _ _ _ _).symm⟩
      · rw [Catalog.moveRelation, if_neg heq] at hkey
        refine .inl ⟨h.covers _ hbefore object hkey, Bool.eq_false_iff.mpr fun hon => ?_⟩
        obtain ⟨_, _, _, hattached, -, hprefix⟩ := key_onTable hkey hon
        cases hattached
        exact heq (hbegins kind other name (List.mem_append_left _ hbefore) hprefix)
  · rw [mem_renameTable hoff] at hobject
    obtain ⟨hobject, hon⟩ | ⟨entry, hentry, hon, rfl⟩ := hobject
    · obtain ⟨entity, hmem | hmem, hkey⟩ := h.sound object hobject
      · refine ⟨entity, .inl (List.mem_map.mpr ⟨entity, hmem, ?_⟩), hkey⟩
        match entity, hmem, hkey with
        | .relation (.view kind) name, hmem, _ =>
          have hne : name ≠ table := fun heq => hview kind (heq ▸ hmem)
          rw [Catalog.moveRelation, if_neg (fun both => hne both.2)]
        | .routine .., _, _ => rfl
        | .attached kind other name, _, hkey =>
          have hne : other ≠ table := by
            rintro rfl
            cases hkey
            rw [onTable_dotted] at hon
            cases hon
          rw [Catalog.moveRelation, if_neg hne]
      · exact ⟨entity, .inr (List.mem_append_left _ hmem), hkey⟩
    · obtain ⟨kind, name, hmem, rfl⟩ := hfound entry hentry hon
      refine ⟨.attached kind new name, ?_, by rw [renamedOnTable_dotted]; rfl⟩
      have hmove : Catalog.moveRelation (fun _ => true) table new (.attached kind table name) = .attached kind new name := by
        rw [Catalog.moveRelation, if_pos rfl]
      exact (List.mem_append.mp hmem).imp (fun hlive => List.mem_map.mpr ⟨_, hlive, hmove⟩)
        fun hstale => List.mem_append_right _ (List.mem_map.mpr ⟨_, hstale, hmove⟩)
  · exact h.stands_moveRelation (fun _ _ _ _ => rfl) hmem
  · exact h.tracked_moveRelation hmem

end

/-- What no entity of the catalog is named by a rename is renamed in the manifest at most. -/
theorem rename_eq {move : Entity → Entity} (hmove : ∀ entity ∈ c.live, move entity = entity) :
    c.rename move = c.renameStale move := by
  have hlive : c.live.map move = c.live := by
    conv_rhs => rw [← List.map_id c.live]
    exact List.map_congr_left hmove
  rw [Catalog.rename, hlive, Catalog.renameStale]

theorem Tracks.moveRelation_absent (h : Tracks c objects routines) (habsent : c.hasRelation old = false) :
    c.rename (Catalog.moveRelation kinds old new) = c.renameStale (Catalog.moveRelation kinds old new) := by
  have hno : ∀ kind, .relation kind old ∉ c.live := fun kind hmem => by
    rw [(hasRelation_iff).mpr ⟨kind, hmem⟩] at habsent
    cases habsent
  refine rename_eq fun entity hmem => ?_
  match entity, hmem with
  | .relation kind name, hmem =>
    have hne : name ≠ old := fun heq => hno kind (heq ▸ hmem)
    rw [Catalog.moveRelation, if_neg (fun both => hne both.2)]
  | .routine .., _ => rfl
  | .attached kind table name, hmem =>
    have hne : table ≠ old := by
      rintro rfl
      rw [h.stands kind table name hmem] at habsent
      cases habsent
    rw [Catalog.moveRelation, if_neg hne]

theorem Tracks.renameView (h : Tracks c objects routines) {kind : ViewKind}
    (hnone : ∀ other name, .attached other old name ∉ c.live) :
    Tracks (c.rename (Catalog.moveRelation (· = .view kind) old new))
    (applyChange objects (.rename ⟨kind.object, old⟩ ⟨kind.object, new⟩)) routines := by
  have hkeep : ∀ entity ∈ c.live, entity ≠ .relation (.view kind) old → Catalog.moveRelation (· = .view kind) old new entity =
      entity := by
    intro entity hmem hne
    match entity, hmem, hne with
    | .relation other name, _, hne =>
      have hcond : ¬(decide (other = .view kind) = true ∧ name = old) :=
        fun both => hne (by rw [of_decide_eq_true both.1, both.2])
      rw [Catalog.moveRelation, if_neg hcond]
    | .routine .., _, _ => rfl
    | .attached other table name, hmem, _ =>
      have hne : table ≠ old := fun heq => hnone other name (heq ▸ hmem)
      rw [Catalog.moveRelation, if_neg hne]
  have hmove : Catalog.moveRelation (· = .view kind) old new (.relation (.view kind) old) = .relation (.view kind) new := by
    rw [Catalog.moveRelation, if_pos ⟨decide_eq_true rfl, rfl⟩]
  refine ⟨fun entity hentity object hkey => ?_, fun object hobject => ?_, fun other table own hmem => ?_,
    fun other name args hmem => ?_⟩
  · obtain ⟨before, hbefore, rfl⟩ := List.mem_map.mp hentity
    rw [mem_rename]
    by_cases heq : before = .relation (.view kind) old
    · subst heq
      rw [hmove] at hkey
      cases hkey
      exact .inr ⟨h.covers _ hbefore _ rfl, rfl⟩
    · rw [hkeep before hbefore heq] at hkey
      refine .inl ⟨h.covers before hbefore object hkey, fun hobject => heq ?_⟩
      rw [hobject] at hkey
      exact key_view hkey
  · rw [mem_rename] at hobject
    obtain ⟨hobject, hne⟩ | ⟨hold, rfl⟩ := hobject
    · obtain ⟨entity, hmem | hmem, hkey⟩ := h.sound object hobject
      · refine ⟨entity, .inl (List.mem_map.mpr ⟨entity, hmem, hkeep entity hmem ?_⟩), hkey⟩
        rintro rfl
        cases hkey
        exact hne rfl
      · exact ⟨entity, .inr (List.mem_append_left _ hmem), hkey⟩
    · obtain ⟨entity, hmem, hkey⟩ := h.sound _ hold
      obtain rfl := key_view hkey
      exact ⟨.relation (.view kind) new, hmem.imp (fun hlive => List.mem_map.mpr ⟨_, hlive, hmove⟩)
        (fun hstale => List.mem_append_right _ (List.mem_map.mpr ⟨_, hstale, hmove⟩)), rfl⟩
  · exact h.stands_moveRelation (fun other name hmem => absurd hmem (hnone other name)) hmem
  · exact h.tracked_moveRelation hmem

theorem moveAttached_of_ne {kind : OnTableKind} (hne : entity ≠ .attached kind table old) :
    Catalog.moveAttached kind table old new entity = entity := by
  match entity, hne with
  | .relation .., _ => rfl
  | .routine .., _ => rfl
  | .attached other relation name, hne =>
    have hcond : ¬(other = kind ∧ relation = table ∧ name = old) := fun all => hne (by rw [all.1, all.2.1, all.2.2])
    rw [Catalog.moveAttached, if_neg hcond]

theorem Tracks.renameOnTable (h : Tracks c objects routines) {kind : OnTableKind}
    (hbegins : ∀ other name, .attached kind other name ∈ c.live ++ c.stale → dotted other name = dotted table old →
      other = table) :
    Tracks (c.rename (Catalog.moveAttached kind table old new))
      (applyChange objects (.rename ⟨kind.object, dotted table old⟩ ⟨kind.object, dotted table new⟩)) routines := by
  have hmove : Catalog.moveAttached kind table old new (.attached kind table old) = .attached kind table new := by
    rw [Catalog.moveAttached, if_pos ⟨rfl, rfl, rfl⟩]
  have hfound : ∀ entity, entity ∈ c.live ++ c.stale → entity.key = some ⟨kind.object, dotted table old⟩ →
      entity = .attached kind table old := by
    intro entity hmem hkey
    obtain ⟨other, name, rfl, htext⟩ := key_attached hkey
    obtain rfl := hbegins other name hmem htext
    rw [List.tail_eq_of_cons_eq (List.append_cancel_left htext)]
  refine ⟨fun entity hentity object hkey => ?_, fun object hobject => ?_, fun other relation own hmem => ?_,
    fun other name args hmem => ?_⟩
  · obtain ⟨before, hbefore, rfl⟩ := List.mem_map.mp hentity
    rw [mem_rename]
    by_cases heq : before = .attached kind table old
    · subst heq
      rw [hmove] at hkey
      cases hkey
      exact .inr ⟨h.covers _ hbefore _ rfl, rfl⟩
    · rw [moveAttached_of_ne heq] at hkey
      refine .inl ⟨h.covers before hbefore object hkey, fun hobject => heq ?_⟩
      rw [hobject] at hkey
      exact hfound before (List.mem_append_left _ hbefore) hkey
  · rw [mem_rename] at hobject
    obtain ⟨hobject, hne⟩ | ⟨hold, rfl⟩ := hobject
    · obtain ⟨entity, hmem | hmem, hkey⟩ := h.sound object hobject
      · refine ⟨entity, .inl (List.mem_map.mpr ⟨entity, hmem, moveAttached_of_ne ?_⟩), hkey⟩
        rintro rfl
        cases hkey
        exact hne rfl
      · exact ⟨entity, .inr (List.mem_append_left _ hmem), hkey⟩
    · obtain ⟨entity, hmem, hkey⟩ := h.sound _ hold
      obtain rfl := hfound entity (List.mem_append.mpr hmem) hkey
      exact ⟨.attached kind table new, hmem.imp (fun hlive => List.mem_map.mpr ⟨_, hlive, hmove⟩)
        (fun hstale => List.mem_append_right _ (List.mem_map.mpr ⟨_, hstale, hmove⟩)), rfl⟩
  · obtain ⟨before, hbefore, heq⟩ := List.mem_map.mp hmem
    match before, hbefore, heq with
    | .attached .., hbefore, heq =>
      cases heq
      obtain ⟨stood, hstood⟩ := (hasRelation_iff).mp (h.stands _ _ _ hbefore)
      exact (hasRelation_iff).mpr ⟨stood, List.mem_map.mpr ⟨_, hstood, rfl⟩⟩
  · obtain ⟨before, hbefore, heq⟩ := List.mem_map.mp hmem
    match before, hbefore, heq with
    | .routine .., hbefore, heq =>
      cases heq
      exact h.tracked _ _ _ hbefore

/-- The changes of the `RENAME` of a routine. -/
def routineRenames (word : RoutineWord) (old new : Name) : List ManifestChange :=
  word.kinds.map fun kind => .rename ⟨kind.object, old⟩ ⟨kind.object, new⟩

theorem mem_routineRenames {other : DatabaseObject} :
    other ∈ (routineRenames word old new).foldl applyChange objects
      ↔ (other ∈ objects ∧ ∀ kind ∈ word.kinds, other ≠ ⟨kind.object, old⟩)
        ∨ ∃ kind ∈ word.kinds, ⟨kind.object, old⟩ ∈ objects ∧ other = ⟨kind.object, new⟩ := by
  cases word with
  | function =>
    simp only [routineRenames, RoutineWord.kinds, List.map_cons, List.map_nil, List.foldl_cons, List.foldl_nil, mem_rename,
      List.mem_singleton, forall_eq, exists_eq_left]
  | procedure =>
    simp only [routineRenames, RoutineWord.kinds, List.map_cons, List.map_nil, List.foldl_cons, List.foldl_nil, mem_rename,
      List.mem_singleton, forall_eq, exists_eq_left]
  | routine =>
    have hapart : ∀ one two : Name, (⟨.function, one⟩ : DatabaseObject) ≠ ⟨.procedure, two⟩ := fun _ _ h => by cases h
    simp only [routineRenames, RoutineWord.kinds, List.map_cons, List.map_nil, List.foldl_cons, List.foldl_nil, mem_rename,
      List.mem_cons,
      List.not_mem_nil, or_false, forall_eq_or_imp, forall_eq, exists_eq_or_imp, exists_eq_left, RoutineKind.object]
    constructor
    · rintro (⟨⟨hmem, hfunction⟩ | ⟨hmem, rfl⟩, hprocedure⟩ | ⟨⟨hmem, -⟩ | ⟨-, heq⟩, rfl⟩)
      · exact .inl ⟨hmem, hfunction, hprocedure⟩
      · exact .inr (.inl ⟨hmem, rfl⟩)
      · exact .inr (.inr ⟨hmem, rfl⟩)
      · exact absurd heq.symm (hapart _ _)
    · rintro (⟨hmem, hfunction, hprocedure⟩ | ⟨hmem, rfl⟩ | ⟨hmem, rfl⟩)
      · exact .inl ⟨.inl ⟨hmem, hfunction⟩, hprocedure⟩
      · exact .inl ⟨.inr ⟨hmem, rfl⟩, hapart _ _⟩
      · exact .inr ⟨.inl ⟨hmem, fun h => hapart _ _ h.symm⟩, rfl⟩

theorem get_routineRenames (hne : old ≠ new) (hget : routines.get old = some args) (refused : List MigrationRefusal)
    (other : Name) :
    ((routineRenames word old new).foldl overloadStep (routines, refused)).1.get other
      = if other = new then some args else if other = old then none else routines.get other := by
  have hmoved : ((routines.delete old).set new args).get other
      = if other = new then some args else if other = old then none else routines.get other := by
    rw [get_set, get_delete]
  cases word with
  | function =>
    simp only [routineRenames, RoutineWord.kinds, RoutineKind.object, List.map_cons, List.map_nil, List.foldl_cons,
      List.foldl_nil, overloadStep, DatabaseObjectKind.isRoutine, if_true, hget]
    exact hmoved
  | procedure =>
    simp only [routineRenames, RoutineWord.kinds, RoutineKind.object, List.map_cons, List.map_nil, List.foldl_cons,
      List.foldl_nil, overloadStep, DatabaseObjectKind.isRoutine, if_true, hget]
    exact hmoved
  | routine =>
    have hgone : ((routines.delete old).set new args).get old = none := by rw [get_set, if_neg hne, get_delete, if_pos rfl]
    simp only [routineRenames, RoutineWord.kinds, RoutineKind.object, List.map_cons, List.map_nil, List.foldl_cons,
      List.foldl_nil, overloadStep, DatabaseObjectKind.isRoutine, if_true, hget, hgone]
    rw [get_delete, hmoved]
    by_cases heq : other = old
    · rw [if_pos heq, heq, if_neg hne, if_pos rfl]
    · rw [if_neg heq, if_neg heq]

theorem Tracks.renameRoutine (h : Tracks c objects routines) (hold : .routine kind old args ∈ c.live)
    (hkind : kind ∈ word.kinds) (hnew : ∀ other own, .routine other new own ∉ c.live) (refused : List MigrationRefusal) :
    Tracks ⟨c.live.map fun entity => if entity = .routine kind old args then .routine kind new args else entity,
        c.stale ++ c.stale.map (Catalog.moveRoutine word old new)⟩
      ((routineRenames word old new).foldl applyChange objects)
      ((routineRenames word old new).foldl overloadStep (routines, refused)).1 := by
  have hne : old ≠ new := fun heq => hnew kind args (heq ▸ hold)
  have honly : ∀ other own, .routine other old own ∈ c.live → Entity.routine other old own = .routine kind old args := by
    intro other own hmem
    obtain ⟨rfl, rfl⟩ := h.routine_unique hold hmem
    rfl
  refine ⟨fun entity hentity object hkey => ?_, fun object hobject => ?_, fun other table own hmem => ?_,
    fun other name own hmem => ?_⟩
  · obtain ⟨before, hbefore, heq⟩ := List.mem_map.mp hentity
    rw [mem_routineRenames]
    by_cases hmoved : before = .routine kind old args
    · rw [if_pos hmoved] at heq
      subst heq
      cases hkey
      exact .inr ⟨kind, hkind, h.covers _ hold _ rfl, rfl⟩
    · rw [if_neg hmoved] at heq
      subst heq
      refine .inl ⟨h.covers before hbefore object hkey, fun other _ hobject => hmoved ?_⟩
      rw [hobject] at hkey
      obtain ⟨own, rfl⟩ := key_routine hkey
      exact honly other own hbefore
  · rw [mem_routineRenames] at hobject
    obtain ⟨hobject, hapart⟩ | ⟨other, hother, hlisted, rfl⟩ := hobject
    · obtain ⟨entity, hmem | hmem, hkey⟩ := h.sound object hobject
      · refine ⟨entity, .inl (List.mem_map.mpr ⟨entity, hmem, if_neg ?_⟩), hkey⟩
        rintro rfl
        cases hkey
        exact hapart kind hkind rfl
      · exact ⟨entity, .inr (List.mem_append_left _ hmem), hkey⟩
    · obtain ⟨entity, hmem, hkey⟩ := h.sound _ hlisted
      obtain ⟨own, rfl⟩ := key_routine hkey
      obtain hlive | hstale := hmem
      · have hsame := honly other own hlive
        cases hsame
        exact ⟨.routine kind new args, .inl (List.mem_map.mpr ⟨_, hold, if_pos rfl⟩), rfl⟩
      · refine ⟨.routine other new own, .inr (List.mem_append_right _ (List.mem_map.mpr ⟨_, hstale, ?_⟩)), rfl⟩
        rw [Catalog.moveRoutine, if_pos ⟨hother, rfl⟩]
  · obtain ⟨before, hbefore, heq⟩ := List.mem_map.mp hmem
    have hsame : before = .attached other table own := by
      by_cases hmoved : before = .routine kind old args
      · rw [if_pos hmoved] at heq
        cases heq
      · rwa [if_neg hmoved] at heq
    rw [hsame] at hbefore
    obtain ⟨stood, hstood⟩ := (hasRelation_iff).mp (h.stands _ _ _ hbefore)
    exact (hasRelation_iff).mpr ⟨stood, List.mem_map.mpr ⟨_, hstood, if_neg (fun heq => nomatch heq)⟩⟩
  · rw [get_routineRenames hne (h.tracked _ _ _ hold)]
    obtain ⟨before, hbefore, heq⟩ := List.mem_map.mp hmem
    by_cases hmoved : before = .routine kind old args
    · rw [if_pos hmoved] at heq
      cases heq
      rw [if_pos rfl]
    · rw [if_neg hmoved] at heq
      subst heq
      have hnot : name ≠ new := fun heq => hnew other own (heq ▸ hbefore)
      have hnot' : name ≠ old := by
        rintro rfl
        exact hmoved (honly other own hbefore)
      rw [if_neg hnot, if_neg hnot']
      exact h.tracked _ _ _ hbefore

/-! ## A drop -/

/-- What goes from the catalog and from the manifest alike. -/
theorem Tracks.shrink (h : Tracks c objects routines) {c' : Catalog} {objects' : List DatabaseObject} (hlive : c'.live ⊆ c.live)
    (hobjects : objects' ⊆ objects)
    (hcovers : ∀ entity ∈ c'.live, ∀ object, entity.key = some object → object ∈ objects → object ∈ objects')
    (hsound : ∀ object ∈ objects', ∀ entity, entity.key = some object →
      (entity ∈ c.live → entity ∈ c'.live) ∧ (entity ∈ c.stale → entity ∈ c'.stale))
    (hstands : ∀ kind table name relation, .attached kind table name ∈ c'.live → .relation relation table ∈ c.live →
      .relation relation table ∈ c'.live) :
    Tracks c' objects' routines where
  covers := fun entity hentity object hkey => hcovers entity hentity object hkey (h.covers entity (hlive hentity) object hkey)
  sound := by
    intro object hobject
    obtain ⟨entity, hmem, hkey⟩ := h.sound object (hobjects hobject)
    obtain ⟨hkept, hkept'⟩ := hsound object hobject entity hkey
    exact ⟨entity, hmem.imp hkept hkept', hkey⟩
  stands := by
    intro kind table name hmem
    obtain ⟨relation, hrelation⟩ := (hasRelation_iff).mp (h.stands kind table name (hlive hmem))
    exact (hasRelation_iff).mpr ⟨relation, hstands kind table name relation hmem hrelation⟩
  tracked := fun kind name args hmem => h.tracked kind name args (hlive hmem)

theorem Tracks.forget (h : Tracks c objects routines) (hnone : ∀ kind args, .routine kind name args ∉ c.live) :
    Tracks c objects (routines.delete name) where
  covers := h.covers
  sound := h.sound
  stands := h.stands
  tracked := by
    intro kind other args hmem
    have hne : other ≠ name := fun heq => hnone kind args (heq ▸ hmem)
    rw [get_delete, if_neg hne]
    exact h.tracked kind other args hmem

theorem mem_deleteObject_subset : deleteObject objects object ⊆ objects := fun _ h => ((mem_deleteObject).mp h).1

theorem mem_dropTable_subset : applyChange objects (.dropTable table) ⊆ objects := fun _ h => ((mem_dropTable).mp h).1

section
variable (h : Tracks c objects routines)
include h

theorem Tracks.dropTable
    (hbegins : ∀ kind other name, .attached kind other name ∈ c.live → dotted table [] <+: dotted other name → other = table) :
    Tracks (c.dropRelation .table table) (applyChange objects (.dropTable table)) routines := by
  refine h.shrink (fun _ hmem => (List.mem_filter.mp hmem).1) mem_dropTable_subset (fun entity hentity object hkey hobject => ?_)
    (fun object hobject entity hkey =>
      ⟨fun hlive => ?_, fun hstale => ?_⟩) (fun kind other name relation hattached hrelation => ?_)
  · obtain ⟨hmem, hkept⟩ := List.mem_filter.mp hentity
    refine (mem_dropTable).mpr ⟨hobject, Bool.eq_false_iff.mpr fun hon => ?_⟩
    obtain ⟨kind, other, name, rfl, -, hprefix⟩ := key_onTable hkey hon
    simp [Catalog.belongsTo, hbegins kind other name hmem hprefix] at hkept
  · refine List.mem_filter.mpr ⟨hlive, ?_⟩
    match entity, hkey with
    | .relation (.view kind) name, _ => simp [Catalog.belongsTo]
    | .routine .., _ => rfl
    | .attached kind other name, hkey =>
      have hne : other ≠ table := by
        rintro rfl
        cases hkey
        have hoff := ((mem_dropTable).mp hobject).2
        rw [onTable_dotted] at hoff
        cases hoff
      simp [Catalog.belongsTo, hne]
  · refine List.mem_filter.mpr ⟨hstale, decide_eq_true ?_⟩
    rintro rfl
    cases hkey
  · obtain ⟨-, hkept⟩ := List.mem_filter.mp hattached
    have hne : other ≠ table := by simpa [Catalog.belongsTo] using hkept
    exact List.mem_filter.mpr ⟨hrelation, by simp [Catalog.belongsTo, hne]⟩

theorem Tracks.dropTable_absent (habsent : c.hasRelation table = false)
    (hbegins : ∀ kind other name, .attached kind other name ∈ c.live → dotted table [] <+: dotted other name → other = table) :
    Tracks c (applyChange objects (.dropTable table)) routines := by
  refine h.shrink (fun _ hmem => hmem) mem_dropTable_subset (fun entity hentity object hkey hobject => ?_)
    (fun _ _ _ _ => ⟨id, id⟩) (fun _ _ _ _ _ hrelation => hrelation)
  refine (mem_dropTable).mpr ⟨hobject, Bool.eq_false_iff.mpr fun hon => ?_⟩
  obtain ⟨kind, other, name, rfl, -, hprefix⟩ := key_onTable hkey hon
  have hstands := h.stands kind other name hentity
  rw [hbegins kind other name hentity hprefix, habsent] at hstands
  cases hstands

theorem Tracks.dropView {kind : ViewKind} {view : Name} (hnone : ∀ other name, .attached other view name ∉ c.live) :
    Tracks (c.dropRelation (.view kind) view) (deleteObject objects ⟨kind.object, view⟩) routines := by
  refine h.shrink (fun _ hmem =>
    (List.mem_filter.mp hmem).1) mem_deleteObject_subset (fun entity hentity object hkey hobject => ?_)
    (fun object hobject entity hkey =>
      ⟨fun hlive => ?_, fun hstale => ?_⟩) (fun other table name relation hattached hrelation => ?_)
  · obtain ⟨-, hkept⟩ := List.mem_filter.mp hentity
    refine (mem_deleteObject).mpr ⟨hobject, ?_⟩
    rintro rfl
    obtain rfl := key_view hkey
    simp [Catalog.belongsTo] at hkept
  · refine List.mem_filter.mpr ⟨hlive, ?_⟩
    match entity, hlive, hkey with
    | .relation (.view other) name, _, hkey =>
      have hne : ¬(other = kind ∧ name = view) := by
        rintro ⟨rfl, rfl⟩
        cases hkey
        exact ((mem_deleteObject).mp hobject).2 rfl
      rw [not_and_or] at hne
      simpa [Catalog.belongsTo] using hne
    | .routine .., _, _ => rfl
    | .attached other table name, hlive, _ =>
      have hne : table ≠ view := fun heq => hnone other name (heq ▸ hlive)
      simp [Catalog.belongsTo, hne]
  · refine List.mem_filter.mpr ⟨hstale, decide_eq_true ?_⟩
    rintro rfl
    cases hkey
    exact ((mem_deleteObject).mp hobject).2 rfl
  · obtain ⟨-, hkept⟩ := List.mem_filter.mp hattached
    have hne : table ≠ view := by simpa [Catalog.belongsTo] using hkept
    exact List.mem_filter.mpr ⟨hrelation, by simp [Catalog.belongsTo, hne]⟩

/-- An object dropped from the manifest that nothing of the catalog has. -/
theorem Tracks.deleteObject_absent (hnone : ∀ entity ∈ c.live, entity.key ≠ some object) :
    Tracks c (deleteObject objects object) routines := by
  refine h.shrink (fun _ hmem => hmem) mem_deleteObject_subset (fun entity hentity other hkey hother => ?_)
    (fun _ _ _ _ => ⟨id, id⟩) (fun _ _ _ _ _ hrelation => hrelation)
  refine (mem_deleteObject).mpr ⟨hother, ?_⟩
  rintro rfl
  exact hnone entity hentity hkey

theorem Tracks.dropOne (hkey : entity.key = some object) (hnot : ∀ kind name, entity ≠ .relation kind name)
    (honly : ∀ other ∈ c.live, other.key = some object → other = entity) :
    Tracks (c.dropOne entity) (deleteObject objects object) routines := by
  have hkept : ∀ own ∈ deleteObject objects object, ∀ other : Entity, other.key = some own → other ≠ entity := by
    rintro own hown other hother rfl
    rw [hkey] at hother
    cases hother
    exact ((mem_deleteObject).mp hown).2 rfl
  refine h.shrink (fun _ hmem => (List.mem_filter.mp hmem).1) mem_deleteObject_subset (fun other hother own hown hlisted => ?_)
    (fun own hown other hother => ⟨fun hlive => ?_, fun hstale => ?_⟩) (fun kind table name relation hattached hrelation => ?_)
  · obtain ⟨hmem, hne⟩ := List.mem_filter.mp hother
    refine (mem_deleteObject).mpr ⟨hlisted, ?_⟩
    rintro rfl
    exact of_decide_eq_true hne (honly other hmem hown)
  · exact List.mem_filter.mpr ⟨hlive, decide_eq_true (hkept own hown other hother)⟩
  · exact List.mem_filter.mpr ⟨hstale, decide_eq_true (hkept own hown other hother)⟩
  · exact List.mem_filter.mpr ⟨hrelation, decide_eq_true (Ne.symm (hnot relation table))⟩

end

/-- The changes of the `DROP` of a routine. -/
def routineDrops (word : RoutineWord) (name : Name) : List ManifestChange := word.kinds.map fun kind => .drop ⟨kind.object, name⟩

/-- A routine's name is dropped for each kind the word names: of those nothing is left. -/
theorem Tracks.routineDrops (h : Tracks c objects routines) (word : RoutineWord)
    (hnone : ∀ kind args, .routine kind name args ∉ c.live) (refused : List MigrationRefusal) :
    Tracks c ((Migrations.routineDrops word name).foldl applyChange objects)
      ((Migrations.routineDrops word name).foldl overloadStep (routines, refused)).1 := by
  have hdrop : ∀ {objects' : List DatabaseObject} {routines' : Routines} (kind : RoutineKind), Tracks c objects' routines' →
      Tracks c (deleteObject objects' ⟨kind.object, name⟩) (routines'.delete name) := by
    intro objects' routines' kind h'
    refine (h'.deleteObject_absent fun entity hmem hkey => ?_).forget hnone
    obtain ⟨args, rfl⟩ := key_routine hkey
    exact hnone kind args hmem
  cases word with
  | function => exact hdrop .function h
  | procedure => exact hdrop .procedure h
  | routine => exact hdrop .procedure (hdrop .function h)

/-- The dropped routine's own object first, and its name where it is still listed. -/
theorem Tracks.dropRoutine (h : Tracks c objects routines) (hlive : .routine kind name args ∈ c.live)
    (hkind : kind ∈ word.kinds) (refused : List MigrationRefusal) :
    Tracks (c.dropOne (.routine kind name args)) ((Migrations.routineDrops word name).foldl applyChange objects)
      ((Migrations.routineDrops word name).foldl overloadStep (routines, refused)).1 := by
  have honly : ∀ other ∈ c.live, other.key = some ⟨kind.object, name⟩ → other = .routine kind name args := by
    intro other hother hkey
    obtain ⟨own, rfl⟩ := key_routine hkey
    obtain ⟨-, rfl⟩ := h.routine_unique hlive hother
    rfl
  have hone : Tracks (c.dropOne (.routine kind name args)) (deleteObject objects ⟨kind.object, name⟩) routines :=
    h.dropOne rfl (fun _ _ heq => nomatch heq) honly
  have hnone : ∀ other own, .routine other name own ∉ (c.dropOne (.routine kind name args)).live := by
    intro other own hmem
    obtain ⟨hmem, hne⟩ := List.mem_filter.mp hmem
    obtain ⟨rfl, rfl⟩ := h.routine_unique hlive hmem
    exact of_decide_eq_true hne rfl
  have hagain := hone.routineDrops word hnone refused
  have hsame : ∀ object, object ∈ (Migrations.routineDrops word name).foldl applyChange (deleteObject objects ⟨kind.object, name⟩)
      ↔ object ∈ (Migrations.routineDrops word name).foldl applyChange objects := by
    intro object
    cases word <;> cases kind <;>
      first
      | exact absurd hkind (by decide)
      | (simp only [Migrations.routineDrops, RoutineWord.kinds, List.map_cons, List.map_nil, List.foldl_cons, List.foldl_nil,
          applyChange, mem_deleteObject, RoutineKind.object]
         tauto)
  exact ⟨fun entity hentity object hkey => (hsame object).mp (hagain.covers entity hentity object hkey),
    fun object hobject => hagain.sound object ((hsame object).mpr hobject), hagain.stands, hagain.tracked⟩

end

end Fabrika.Platform.Migrations
