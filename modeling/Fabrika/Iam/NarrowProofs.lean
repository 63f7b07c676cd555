/-
  Fabrika.Iam.NarrowProofs — what narrowing permissions by a ceiling keeps.

  The narrower entries of all overlapping pairs grant exactly what both sides grant
  (`permits_overlaps`). `narrowPermissions` is those that are the first of their key
  (`mem_narrowPermissions`), so it is exact exactly where the first of each key cover the rest:
  `narrowPermissions_exact`.
-/

import Fabrika.Iam.Narrow

namespace Fabrika.Iam.Narrow

open Fabrika.AuthCore

/-! ## The loops -/

/-- The entries pushed are those that are the first of their key among the pairs met, and the
    keys seen are theirs. -/
structure Holds (met : List ResolvedEntry) (state : Narrowed) : Prop where
  firsts : ∀ e, e ∈ state.result ↔ IsFirst met e
  keys : ∀ key, key ∈ state.seen ↔ key ∈ met.map entryKey
  distinct : (state.result.map entryKey).Nodup

variable {met live : List ResolvedEntry} {state : Narrowed} {ceiling : List KeyGrant}

variable {e : ResolvedEntry}

theorem isFirst_snoc {entries : List ResolvedEntry} {last : ResolvedEntry} :
    IsFirst (entries ++ [last]) e ↔ IsFirst entries e ∨ e = last ∧ entryKey last ∉ entries.map entryKey := by
  constructor
  · intro ⟨before, after, heq, hkey⟩
    rcases List.eq_nil_or_concat after with rfl | ⟨init, x, rfl⟩
    · obtain ⟨rfl, hlast⟩ := List.append_inj' heq rfl
      cases hlast
      exact .inr ⟨rfl, hkey⟩
    · rw [List.concat_eq_append, ← List.cons_append, ← List.append_assoc] at heq
      obtain ⟨rfl, -⟩ := List.append_inj' heq rfl
      exact .inl ⟨before, init, rfl, hkey⟩
  · intro h
    rcases h with ⟨before, after, rfl, hkey⟩ | ⟨rfl, hkey⟩
    · exact ⟨before, after ++ [last], by simp, hkey⟩
    · exact ⟨entries, [], rfl, hkey⟩

theorem IsFirst.mem {entries : List ResolvedEntry} (h : IsFirst entries e) : e ∈ entries := by
  obtain ⟨before, after, rfl, -⟩ := h
  simp

theorem holds_init : Holds [] ⟨[], []⟩ := by
  refine ⟨fun e => ⟨fun h => absurd h List.not_mem_nil, fun h => ?_⟩, fun _ => Iff.rfl, List.nodup_nil⟩
  exact absurd h.mem List.not_mem_nil

theorem holds_meet (h : Holds met state) (held : ResolvedEntry) (limit : KeyGrant) :
    Holds (met ++ (narrower held limit).toList) (meet held state limit) := by
  unfold meet
  cases hn : narrower held limit with
  | none => simpa using h
  | some e =>
    dsimp only [Option.toList_some]
    by_cases hseen : state.seen.contains (entryKey e) = true
    · have hmet : entryKey e ∈ met.map entryKey := (h.keys _).mp (List.contains_iff_mem.mp hseen)
      rw [if_pos hseen]
      refine ⟨fun x => ?_, fun key => ?_, h.distinct⟩
      · rw [isFirst_snoc, h.firsts]
        simp [hmet]
      · rw [h.keys, List.map_append, List.mem_append]
        refine ⟨.inl, fun hkey => hkey.elim id fun hlast => ?_⟩
        rw [List.map_singleton, List.mem_singleton] at hlast
        exact hlast ▸ hmet
    · have hmet : entryKey e ∉ met.map entryKey := fun hmem => hseen (List.contains_iff_mem.mpr ((h.keys _).mpr hmem))
      rw [if_neg hseen]
      refine ⟨fun x => ?_, fun key => ?_, ?_⟩
      · rw [isFirst_snoc, List.mem_append, h.firsts, List.mem_singleton]
        simp only [hmet, not_false_eq_true, and_true]
      · rw [List.mem_append, h.keys, List.map_append, List.mem_append]
        exact Iff.rfl
      · rw [List.map_append, List.nodup_append]
        refine ⟨h.distinct, List.nodup_singleton _, fun a ha b hb heq => ?_⟩
        rw [List.map_singleton, List.mem_singleton] at hb
        obtain ⟨x, hx, rfl⟩ := List.mem_map.mp ha
        exact hmet (hb ▸ heq ▸ List.mem_map_of_mem ((h.firsts x).mp hx).mem)

theorem holds_limits (h : Holds met state) (held : ResolvedEntry) (ceiling : List KeyGrant) :
    Holds (met ++ ceiling.filterMap (narrower held)) (ceiling.foldl (meet held) state) := by
  induction ceiling generalizing met state with
  | nil => simpa using h
  | cons limit rest ih =>
    have hnext := ih (holds_meet h held limit)
    rw [List.foldl_cons]
    cases hn : narrower held limit with
    | none => simpa [hn] using hnext
    | some e => simpa [hn] using hnext

theorem holds_live (h : Holds met state) (ceiling : List KeyGrant) (live : List ResolvedEntry) :
    Holds (met ++ overlaps live ceiling) (live.foldl (fun state held => ceiling.foldl (meet held) state) state) := by
  induction live generalizing met state with
  | nil => simpa [overlaps] using h
  | cons held rest ih =>
    have hnext := ih (holds_limits h held ceiling)
    rw [List.append_assoc] at hnext
    exact hnext

theorem holds_narrowPermissions (live : List ResolvedEntry) (ceiling : List KeyGrant) :
    Holds (overlaps live ceiling) (live.foldl (fun state held => ceiling.foldl (meet held) state) ⟨[], []⟩) :=
  holds_live holds_init ceiling live

theorem mem_narrowPermissions : e ∈ narrowPermissions live ceiling ↔ IsFirst (overlaps live ceiling) e :=
  (holds_narrowPermissions live ceiling).firsts e

theorem nodup_narrowPermissions (live : List ResolvedEntry) (ceiling : List KeyGrant) : (narrowPermissions live ceiling).Nodup :=
  (holds_narrowPermissions live ceiling).distinct.of_map _

/-! ## What the overlapping pairs grant -/

/-- What an entry grants of an action in a scope. -/
def Grants (e : PermissionEntry) (action : String) (scope : Option Scope) : Prop :=
  (e.scope = none ∨ e.scope = scope) ∧ matchAction e.action action = true

theorem permits_iff {entries : List PermissionEntry} {action : String} {scope : Option Scope} :
    permits entries action scope = true ↔ ∃ e ∈ entries, Grants e action scope := by
  cases scope with
  | none =>
    rw [permits_none_iff]
    exact exists_congr fun e => and_congr_right fun _ => and_congr_left fun _ => (or_self_iff).symm
  | some scope => exact permits_some_iff

theorem Covers.grants {wide narrow : PermissionEntry} (h : Covers wide narrow) {action : String} {scope : Option Scope}
    (hnarrow : Grants narrow action scope) : Grants wide action scope := by
  obtain ⟨hmatch, hscope⟩ := h
  obtain ⟨hadmits, haction⟩ := hnarrow
  refine ⟨?_, match_trans hmatch haction⟩
  rcases hscope with hnone | heq
  · exact .inl hnone
  · rw [heq]
    exact hadmits

theorem narrowerAction_match {held limit action narrow : String} (h : narrowerAction held limit = some narrow) :
    matchAction narrow action = true ↔ matchAction held action = true ∧ matchAction limit action = true := by
  unfold narrowerAction at h
  split at h
  · next hlimit =>
    cases h
    exact ⟨fun ha => ⟨ha, match_trans hlimit ha⟩, And.left⟩
  · split at h
    · next hheld =>
      cases h
      exact ⟨fun ha => ⟨match_trans hheld ha, ha⟩, And.right⟩
    · cases h

theorem narrowerAction_isSome {held limit action : String} (hheld : matchAction held action = true)
    (hlimit : matchAction limit action = true) : ∃ narrow, narrowerAction held limit = some narrow := by
  unfold narrowerAction
  by_cases hwide : matchAction limit held = true
  · exact ⟨held, if_pos hwide⟩
  · have hnested := (match_nested hlimit hheld).resolve_left hwide
    exact ⟨limit, by rw [if_neg hwide, if_pos hnested]⟩

theorem narrowerScope_admits {held limit scope narrow : Option Scope} (h : narrowerScope held limit = some narrow) :
    (narrow = none ∨ narrow = scope) ↔ (held = none ∨ held = scope) ∧ (limit = none ∨ limit = scope) := by
  cases held with
  | none =>
    cases h
    simp
  | some held =>
    cases limit with
    | none =>
      cases h
      simp
    | some limit =>
      unfold narrowerScope at h
      dsimp only at h
      split at h
      · next heq =>
        cases h
        have hsame : held = limit := by
          cases held
          cases limit
          simpa using heq
        simp [hsame]
      · cases h

theorem narrowerScope_isSome {held limit scope : Option Scope} (hheld : held = none ∨ held = scope)
    (hlimit : limit = none ∨ limit = scope) : ∃ narrow, narrowerScope held limit = some narrow := by
  rcases hheld with rfl | rfl
  · exact ⟨limit, rfl⟩
  · cases held with
    | none => exact ⟨limit, rfl⟩
    | some held =>
      rcases hlimit with rfl | rfl
      · exact ⟨some held, rfl⟩
      · exact ⟨some held, if_pos ⟨rfl, rfl⟩⟩

theorem narrower_eq_some {held : ResolvedEntry} {limit : KeyGrant} :
    narrower held limit = some e ↔ narrowerAction held.entry.action limit.action = some e.entry.action ∧
      narrowerScope held.entry.scope limit.scope = some e.entry.scope ∧ e.source = held.source := by
  obtain ⟨⟨action, scope⟩, source⟩ := e
  unfold narrower
  cases narrowerAction held.entry.action limit.action <;> cases narrowerScope held.entry.scope limit.scope <;>
    simp [and_assoc, eq_comm]

theorem permits_overlaps (live : List ResolvedEntry) (ceiling : List KeyGrant) (action : String) (scope : Option Scope) :
    permits (entriesOf (overlaps live ceiling)) action scope = true ↔
      permits (entriesOf live) action scope = true ∧ permits (ceiling.map KeyGrant.entry) action scope = true := by
  rw [permits_iff, permits_iff, permits_iff]
  constructor
  · intro ⟨entry, hentry, hscope, hmatch⟩
    obtain ⟨e, he, rfl⟩ := List.mem_map.mp hentry
    obtain ⟨held, hheld, he⟩ := List.mem_flatMap.mp he
    obtain ⟨limit, hlimit, hn⟩ := List.mem_filterMap.mp he
    obtain ⟨haction, hnarrow, -⟩ := (narrower_eq_some).mp hn
    obtain ⟨hheldScope, hlimitScope⟩ := (narrowerScope_admits hnarrow).mp hscope
    obtain ⟨hheldAction, hlimitAction⟩ := (narrowerAction_match haction).mp hmatch
    exact ⟨⟨held.entry, List.mem_map_of_mem hheld, hheldScope, hheldAction⟩,
      ⟨limit.entry, List.mem_map_of_mem hlimit, hlimitScope, hlimitAction⟩⟩
  · intro ⟨⟨heldEntry, hheldEntry, hheldScope, hheldAction⟩, ⟨limitEntry, hlimitEntry, hlimitScope, hlimitAction⟩⟩
    obtain ⟨held, hheld, rfl⟩ := List.mem_map.mp hheldEntry
    obtain ⟨limit, hlimit, rfl⟩ := List.mem_map.mp hlimitEntry
    obtain ⟨narrow, haction⟩ := narrowerAction_isSome hheldAction hlimitAction
    obtain ⟨narrowScope, hnarrow⟩ := narrowerScope_isSome hheldScope hlimitScope
    refine ⟨⟨narrow, narrowScope⟩, ?_, (narrowerScope_admits hnarrow).mpr ⟨hheldScope, hlimitScope⟩,
      (narrowerAction_match haction).mpr ⟨hheldAction, hlimitAction⟩⟩
    refine List.mem_map.mpr ⟨⟨⟨narrow, narrowScope⟩, held.source⟩, ?_, rfl⟩
    refine List.mem_flatMap.mpr ⟨held, hheld, List.mem_filterMap.mpr ⟨limit, hlimit, ?_⟩⟩
    exact (narrower_eq_some).mpr ⟨haction, hnarrow, rfl⟩

/-! ## What the first of each key grant -/

theorem exact_of_keysTell (h : KeysTell live ceiling) : Exact live ceiling := by
  intro action scope hconcrete
  rw [← permits_overlaps, permits_iff, permits_iff]
  constructor
  · intro ⟨entry, hentry, hgrants⟩
    obtain ⟨e, he, rfl⟩ := List.mem_map.mp hentry
    exact ⟨e.entry, List.mem_map_of_mem ((mem_narrowPermissions).mp he).mem, hgrants⟩
  · intro ⟨entry, hentry, hgrants⟩
    obtain ⟨e, he, rfl⟩ := List.mem_map.mp hentry
    obtain ⟨first, hfirst, hcovers⟩ := h e he (applies_of_match hgrants.2 hconcrete)
    exact ⟨first.entry, List.mem_map_of_mem ((mem_narrowPermissions).mpr hfirst), hcovers.grants hgrants⟩

theorem keysTell_of_exact (h : Exact live ceiling) : KeysTell live ceiling := by
  intro e he happlies
  by_contra hnone
  -- an action of `e` that no entry kept in its scope matches
  let kept := (narrowPermissions live ceiling).filter fun k => k.entry.scope = none ∨ k.entry.scope = e.entry.scope
  have hunmatched : ∀ p ∈ kept.map fun k => k.entry.action, matchAction p e.entry.action = false := by
    intro p hp
    obtain ⟨k, hk, rfl⟩ := List.mem_map.mp hp
    obtain ⟨hkept, hscope⟩ := List.mem_filter.mp hk
    rw [← Bool.not_eq_true]
    exact fun hmatch => hnone ⟨k, (mem_narrowPermissions).mp hkept, hmatch, of_decide_eq_true hscope⟩
  obtain ⟨action, hconcrete, hmatch, hothers⟩ := exists_unmatched happlies hunmatched
  have hboth := (permits_overlaps live ceiling action e.entry.scope).mp
    ((permits_iff).mpr ⟨e.entry, List.mem_map_of_mem he, .inr rfl, hmatch⟩)
  obtain ⟨entry, hentry, hscope, hgrants⟩ := (permits_iff).mp ((h action e.entry.scope hconcrete).mpr hboth)
  obtain ⟨k, hk, rfl⟩ := List.mem_map.mp hentry
  have hkept : k ∈ kept := List.mem_filter.mpr ⟨hk, decide_eq_true hscope⟩
  rw [hothers _ (List.mem_map_of_mem hkept)] at hgrants
  cases hgrants

/-- Narrowing is exact exactly where the first entry of each key speaks for the others; it
    leaves no duplicate, and two ceilings narrow alike in either order where each narrowing is
    exact. -/
theorem narrowPermissions_exact (live : List ResolvedEntry) :
    (∀ ceiling, Exact live ceiling ↔ KeysTell live ceiling) ∧
    (∀ ceiling, (narrowPermissions live ceiling).Nodup) ∧
    ∀ one other, KeysTell live one → KeysTell (narrowPermissions live one) other →
      KeysTell live other → KeysTell (narrowPermissions live other) one → ∀ action scope, Concrete action →
      permits (entriesOf (narrowPermissions (narrowPermissions live one) other)) action scope =
        permits (entriesOf (narrowPermissions (narrowPermissions live other) one)) action scope := by
  refine ⟨fun ceiling => ⟨keysTell_of_exact, exact_of_keysTell⟩, nodup_narrowPermissions live, ?_⟩
  intro one other hone hotherAfter hother honeAfter action scope hconcrete
  rw [Bool.eq_iff_iff, exact_of_keysTell hotherAfter action scope hconcrete, exact_of_keysTell honeAfter action scope hconcrete,
    exact_of_keysTell hone action scope hconcrete, exact_of_keysTell hother action scope hconcrete, and_assoc, and_assoc]
  exact and_congr_right fun _ => and_comm

/-- `a:b` and `c`, and `a` and `b:c`. -/
def confusable : List ResolvedEntry :=
  [⟨⟨"doc.read", some ⟨"a:b", "c"⟩⟩, .grant⟩, ⟨⟨"doc.read", some ⟨"a", "b:c"⟩⟩, .grant⟩]

theorem one_key_for_two_scopes :
    let scope : Option Scope := some ⟨"a", "b:c"⟩
    permits (entriesOf confusable) "doc.read" scope = true ∧ permits [⟨"*", none⟩] "doc.read" scope = true ∧
    permits (entriesOf (narrowPermissions confusable [⟨"*", none⟩])) "doc.read" scope = false ∧
    permits (entriesOf (narrowPermissions (narrowPermissions confusable [⟨"*", scope⟩]) [⟨"*", none⟩])) "doc.read" scope = true ∧
    permits (entriesOf (narrowPermissions (narrowPermissions confusable [⟨"*", none⟩]) [⟨"*", scope⟩])) "doc.read" scope
      = false := by
  decide

end Fabrika.Iam.Narrow
