/-
  Fabrika.Control.Lines — the lines of an access classification (diff.ts of Control's approval)
  and the comparisons every part of it is made of.

  A line is what it does to access, the comparison that produced it and what it is about. Its
  words, its audience and its review mark are left out: the approval page shows them, and
  nothing decides by them. `canonicalJson` sorts the names of every object, so two values print
  alike exactly when they are equal, and equality stands for it.
-/

import Fabrika.Lib.Keeps
import Fabrika.Lib.Record

namespace Fabrika.Control

open Fabrika.Lib

inductive AccessEffect
  | widens
  | narrows
  | neutral
  deriving DecidableEq

inductive ChangeSubjectKind
  | application
  | endpoint
  | dimension
  | action
  | role
  | mount
  | fileCollection
  | fileKind
  | job
  | exported
  | imported
  | csp
  | table
  | token
  | migration
  deriving DecidableEq

def ChangeSubjectKind.text : ChangeSubjectKind → String
  | .application => "application"
  | .endpoint => "endpoint"
  | .dimension => "dimension"
  | .action => "action"
  | .role => "role"
  | .mount => "mount"
  | .fileCollection => "file-collection"
  | .fileKind => "file-kind"
  | .job => "job"
  | .exported => "export"
  | .imported => "import"
  | .csp => "csp"
  | .table => "table"
  | .token => "token"
  | .migration => "migration"

structure RuledLine where
  rule : String
  effect : AccessEffect
  deriving DecidableEq

structure AccessChange where
  kind : ChangeSubjectKind
  name : String
  rule : String
  effect : AccessEffect
  deriving DecidableEq

/-- What the classification throws: an endpoint table the matcher refuses, or a `TypeError`. -/
inductive Thrown
  | endpointTable (problems : List String)
  | typeError
  deriving DecidableEq

abbrev Answer := Except Thrown

def ruled (rule : String) (lines : List AccessEffect) : List RuledLine := lines.map fun effect => ⟨rule, effect⟩

def place (kind : ChangeSubjectKind) (name : String) (lines : List RuledLine) : List AccessChange :=
  lines.map fun line => ⟨kind, name, line.rule, line.effect⟩

/-! ## Values and lists -/

/-- The values one list gains and loses, in order. -/
def setLines (before after : List String) (added removed : AccessEffect) : List AccessEffect :=
  (union before after).flatMap fun value =>
    if !before.contains value then [added]
    else if !after.contains value then [removed]
    else []

def setChanges (before after : List String) : List AccessEffect := setLines before after .widens .narrows

/-- Any change of a value the diff does not order widens. -/
def valueChange {α : Type} [DecidableEq α] (before after : α) : List AccessEffect :=
  if before = after then [] else [.widens]

/-- A larger or removed limit widens; `none` is no limit. -/
def limitChange (before after : Option Nat) : List AccessEffect :=
  if before = after then []
  else
    match before, after with
    | _, none => [.widens]
    | none, some _ => [.narrows]
    | some b, some a => if b < a then [.widens] else [.narrows]

/-- A longer time limit widens: the site holds its connection, its lease or its claim longer. -/
def timeLimitChange (before after : Nat) : List AccessEffect :=
  if before = after then [] else if before < after then [.widens] else [.narrows]

def flagChange (before after : Bool) (gained lost : AccessEffect) : List AccessEffect :=
  if before = after then [] else if after then [gained] else [lost]

/-! ## Keyed entries -/

structure KeyedLines (α : Type) where
  added : String → α → AccessEffect := fun _ _ => .widens
  removed : String → α → List AccessEffect := fun _ _ => [.narrows]
  changed : String → α → α → Answer (List RuledLine)

def compareKey {α : Type} [DecidableEq α] (kind : ChangeSubjectKind) (before after : Record α) (lines : KeyedLines α)
    (key : String) : Answer (List RuledLine) :=
  match before.lookup key, after.lookup key with
  | none, some now => pure (ruled (kind.text ++ ".added") [lines.added key now])
  | some was, none => pure (ruled (kind.text ++ ".removed") (lines.removed key was))
  | some was, some now => if was = now then pure [] else lines.changed key was now
  | none, none => pure []

def placeKey {α : Type} [DecidableEq α] (kind : ChangeSubjectKind) (before after : Record α) (lines : KeyedLines α)
    (key : String) : Answer (List AccessChange) := do
  let found ← compareKey kind before after lines key
  return place kind key found

/-- A new key widens, a removed key narrows; a key in both is compared by `changed` unless the
    two are equal. -/
def compareKeyed {α : Type} [DecidableEq α] (kind : ChangeSubjectKind) (before after : Record α) (lines : KeyedLines α) :
    Answer (List AccessChange) := do
  let placed ← (union before.keys after.keys).mapM (placeKey kind before after lines)
  return placed.flatten

/-! ## No line widens -/

def NoneWidens (changes : List AccessChange) : Prop := ∀ change ∈ changes, change.effect ≠ .widens

def LinesKeep (lines : List RuledLine) : Prop := ∀ line ∈ lines, line.effect ≠ .widens

@[simp] theorem noneWidens_append {a b : List AccessChange} : NoneWidens (a ++ b) ↔ NoneWidens a ∧ NoneWidens b := by
  simp [NoneWidens, or_imp, forall_and]

@[simp] theorem noneWidens_flatten {lists : List (List AccessChange)} :
    NoneWidens lists.flatten ↔ ∀ changes ∈ lists, NoneWidens changes := by
  simp only [NoneWidens, List.mem_flatten, forall_exists_index, and_imp]
  exact ⟨fun h changes hc change hm => h change changes hc hm, fun h change changes hc hm => h changes hc change hm⟩

@[simp] theorem noneWidens_place {kind : ChangeSubjectKind} {name : String} {lines : List RuledLine} :
    NoneWidens (place kind name lines) ↔ LinesKeep lines := by
  simp [NoneWidens, LinesKeep, place]

@[simp] theorem linesKeep_append {a b : List RuledLine} : LinesKeep (a ++ b) ↔ LinesKeep a ∧ LinesKeep b := by
  simp [LinesKeep, or_imp, forall_and]

@[simp] theorem linesKeep_ruled {rule : String} {lines : List AccessEffect} :
    LinesKeep (ruled rule lines) ↔ AccessEffect.widens ∉ lines := by
  simp only [LinesKeep, ruled, List.mem_map, forall_exists_index, and_imp, forall_apply_eq_imp_iff₂]
  exact ⟨fun h hm => h _ hm rfl, fun h effect hm he => h (he ▸ hm)⟩

@[simp] theorem widens_valueChange {α : Type} [DecidableEq α] {before after : α} :
    AccessEffect.widens ∉ valueChange before after ↔ before = after := by
  unfold valueChange
  by_cases h : before = after <;> simp [h]

/-- Nothing is gained. -/
@[simp] theorem widens_setChanges {before after : List String} :
    AccessEffect.widens ∉ setChanges before after ↔ after ⊆ before := by
  unfold setChanges setLines
  simp only [List.mem_flatMap, mem_union, not_exists, not_and]
  constructor
  · intro h value hv
    by_contra hb
    apply h value (.inr hv)
    simp [hb]
  · intro h value _ hw
    by_cases hb : value ∈ before
    · by_cases ha : value ∈ after <;> simp [hb, ha] at hw
    · simp only [List.contains_eq_mem, hb, decide_false, Bool.not_false, if_true] at hw
      have ha : value ∉ after := fun ha => hb (h ha)
      rename_i hm
      rcases hm with hm | hm
      · exact hb hm
      · exact ha hm

/-- A list of which an added value narrows and a removed one widens. -/
theorem widens_setLines_reversed {before after : List String} :
    AccessEffect.widens ∉ setLines before after .narrows .widens ↔ before ⊆ after := by
  unfold setLines
  simp only [List.mem_flatMap, mem_union, not_exists, not_and]
  constructor
  · intro h value hv
    by_contra ha
    apply h value (.inl hv)
    simp [hv, ha]
  · intro h value _ hw
    by_cases hb : value ∈ before
    · simp [hb, h hb] at hw
    · simp [hb] at hw

/-- `none` is no limit. -/
def Within (after before : Option Nat) : Prop := ∀ b, before = some b → ∃ a, after = some a ∧ a ≤ b

@[simp] theorem widens_limitChange {before after : Option Nat} :
    AccessEffect.widens ∉ limitChange before after ↔ Within after before := by
  unfold limitChange Within
  cases before with
  | none => cases after <;> simp
  | some b =>
    cases after with
    | none => simp
    | some a =>
      by_cases hba : b = a
      · simp [hba]
      · by_cases hlt : b < a
        · simp [hba, hlt]
        · simp [hba, hlt]
          omega

@[simp] theorem widens_timeLimitChange {before after : Nat} :
    AccessEffect.widens ∉ timeLimitChange before after ↔ after ≤ before := by
  unfold timeLimitChange
  by_cases heq : before = after
  · simp [heq]
  · by_cases hlt : before < after
    · simp [heq, hlt]
    · simp [heq, hlt]
      omega

/-- Of an accepted comparison in which nothing widens, every entry that is there now was
    there, and is the same or changed by lines that do not widen. -/
theorem compareKeyed_kept {α : Type} [DecidableEq α] {kind : ChangeSubjectKind} {before after : Record α}
    {lines : KeyedLines α} {changes : List AccessChange} (h : compareKeyed kind before after lines = .ok changes)
    (hno : NoneWidens changes) {key : String} {now : α} (hnow : after.lookup key = some now) :
    (before.lookup key = none ∧ lines.added key now ≠ .widens) ∨
      ∃ was, before.lookup key = some was ∧
        (was = now ∨ ∃ found, lines.changed key was now = .ok found ∧ LinesKeep found) := by
  obtain ⟨placed, hplaced, h⟩ := except_bind_eq_ok.mp h
  cases h
  rw [noneWidens_flatten] at hno
  have hkey : key ∈ union before.keys after.keys := mem_union.mpr (.inr (Record.lookup_isSome_iff.mp ⟨now, hnow⟩))
  obtain ⟨here, hhere, hmem⟩ := except_mapM_all hplaced key hkey
  obtain ⟨found, hfound, hhere⟩ := except_bind_eq_ok.mp hhere
  cases hhere
  have hkeep := hno _ hmem
  rw [noneWidens_place] at hkeep
  unfold compareKey at hfound
  cases hwas : before.lookup key with
  | none =>
    simp only [hwas, hnow] at hfound
    cases hfound
    exact .inl ⟨rfl, fun he => by simp [he] at hkeep⟩
  | some was =>
    simp only [hwas, hnow] at hfound
    refine .inr ⟨was, rfl, ?_⟩
    by_cases heq : was = now
    · exact .inl heq
    · rw [if_neg heq] at hfound
      exact .inr ⟨found, hfound, hkeep⟩

end Fabrika.Control
