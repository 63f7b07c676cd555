/-
  Fabrika.AuthCore.Permissions — the three readers of a permission set: `permits`, which gates one
  action; `scopedValues` (permissions.ts), which lists what an application narrows to; and
  `satisfies`, which gates an endpoint.

  `readers_agree`: they read one relation. Which entries there are decides each of them, so a
  larger set grants no less, and neither the order of the entries nor where they came from counts
  (`readers_congr`).
-/

import Mathlib.Data.List.Nodup
import Fabrika.AuthCore.Requirement

namespace Fabrika.AuthCore

open Fabrika.Lib

/-- Where a resolved entry came from. -/
inductive PermissionSource
  | grant
  | bootstrap
  | terminal
  | group (ref : String)
  deriving DecidableEq

/-- An entry as IAM resolved it. -/
structure ResolvedEntry where
  entry : PermissionEntry
  source : PermissionSource
  deriving DecidableEq

def entriesOf (resolved : List ResolvedEntry) : List PermissionEntry := resolved.map ResolvedEntry.entry

/-- The loop of `scopedValues`: `values` are those pushed so far, each seen once. -/
def scopedValuesFrom (action dimension : String) (values : List String) : List PermissionEntry → Option (List String)
  | [] => some values
  | entry :: rest =>
    if matchAction entry.action action then
      match entry.scope with
      | none => none
      | some scope =>
        if scope.type ≠ dimension then scopedValuesFrom action dimension values rest
        else if values.contains scope.value then scopedValuesFrom action dimension values rest
        else scopedValuesFrom action dimension (values ++ [scope.value]) rest
    else scopedValuesFrom action dimension values rest

/-- The values of one dimension `entries` grant `action` on; none where it is granted
    everywhere. -/
def scopedValues (entries : List PermissionEntry) (action dimension : String) : Option (List String) :=
  scopedValuesFrom action dimension [] entries

/-! ## The relation behind the readers -/

variable {action dimension : String}

theorem permits_none_iff {entries : List PermissionEntry} :
    permits entries action none = true ↔ ∃ entry ∈ entries, entry.scope = none ∧ matchAction entry.action action = true := by
  rw [permits, List.any_eq_true]
  refine exists_congr fun entry => and_congr_right fun _ => ?_
  cases hscope : entry.scope <;> simp [scopeAdmits]

theorem permits_some_iff {entries : List PermissionEntry} {scope : Scope} :
    permits entries action (some scope) = true ↔
      ∃ entry ∈ entries, (entry.scope = none ∨ entry.scope = some scope) ∧ matchAction entry.action action = true := by
  obtain ⟨type, value⟩ := scope
  rw [permits, List.any_eq_true]
  refine exists_congr fun entry => and_congr_right fun _ => ?_
  cases hscope : entry.scope with
  | none => simp [scopeAdmits]
  | some granted =>
    obtain ⟨grantedType, grantedValue⟩ := granted
    simp [scopeAdmits]

/-- What holds of the loop: it stops at a global grant, and else adds each value granted in the
    dimension once. -/
theorem scopedValuesFrom_spec (action dimension : String) (entries : List PermissionEntry) (values : List String) :
    (scopedValuesFrom action dimension values entries = none ↔
        ∃ entry ∈ entries, entry.scope = none ∧ matchAction entry.action action = true) ∧
      ∀ result, scopedValuesFrom action dimension values entries = some result →
        (values.Nodup → result.Nodup) ∧ ∀ v, v ∈ result ↔ v ∈ values ∨
          ∃ entry ∈ entries, entry.scope = some ⟨dimension, v⟩ ∧ matchAction entry.action action = true := by
  induction entries generalizing values with
  | nil => simp [scopedValuesFrom]
  | cons entry rest ih =>
    rw [scopedValuesFrom]
    by_cases hmatch : matchAction entry.action action = true
    · rw [if_pos hmatch]
      cases hscope : entry.scope with
      | none => simp [hscope, hmatch]
      | some scope =>
        obtain ⟨type, value⟩ := scope
        dsimp only
        by_cases htype : type ≠ dimension
        · rw [if_pos htype]
          simpa [hscope, htype] using ih values
        · rw [if_neg htype]
          rw [ne_eq, not_not] at htype
          subst htype
          by_cases hseen : values.contains value = true
          · rw [if_pos hseen]
            obtain ⟨hnone, hsome⟩ := ih values
            refine ⟨by simpa [hscope] using hnone, ?_⟩
            intro result hresult
            obtain ⟨hnodup, hmem⟩ := hsome result hresult
            refine ⟨hnodup, fun v => ?_⟩
            have hvalue : value ∈ values := by simpa using hseen
            rw [hmem v]
            simp only [List.mem_cons, exists_eq_or_imp, hscope, hmatch, and_true, Option.some.injEq, Scope.mk.injEq, true_and]
            constructor
            · rintro (hold | hnew)
              · exact .inl hold
              · exact .inr (.inr hnew)
            · rintro (hold | rfl | hnew)
              · exact .inl hold
              · exact .inl hvalue
              · exact .inr hnew
          · rw [if_neg hseen]
            obtain ⟨hnone, hsome⟩ := ih (values ++ [value])
            refine ⟨by simpa [hscope] using hnone, ?_⟩
            intro result hresult
            obtain ⟨hnodup, hmem⟩ := hsome result hresult
            have hvalue : value ∉ values := by simpa using hseen
            refine ⟨fun hvalues => hnodup (List.nodup_append.mpr ⟨hvalues, List.nodup_singleton _, ?_⟩), fun v => ?_⟩
            · rintro a ha b hb rfl
              exact hvalue (List.mem_singleton.mp hb ▸ ha)
            · rw [hmem v]
              simp only [List.mem_append, List.mem_cons, List.not_mem_nil, false_or, exists_eq_or_imp, hscope, hmatch, and_true,
                Option.some.injEq, Scope.mk.injEq, true_and, or_assoc, @eq_comm _ value v]
    · rw [if_neg hmatch]
      simpa [hmatch] using ih values

theorem scopedValues_none_iff {entries : List PermissionEntry} :
    scopedValues entries action dimension = none ↔ permits entries action none = true := by
  rw [permits_none_iff]
  exact (scopedValuesFrom_spec action dimension entries []).1

theorem scopedValues_some {entries : List PermissionEntry} {values : List String}
    (h : scopedValues entries action dimension = some values) :
    values.Nodup ∧ ∀ v, v ∈ values ↔ permits entries action (some ⟨dimension, v⟩) = true := by
  obtain ⟨hnone, hsome⟩ := scopedValuesFrom_spec action dimension entries []
  obtain ⟨hnodup, hmem⟩ := hsome values h
  refine ⟨hnodup List.nodup_nil, fun v => ?_⟩
  rw [hmem v, permits_some_iff]
  constructor
  · rintro (hnil | ⟨entry, hentry, hscope, hmatch⟩)
    · cases hnil
    · exact ⟨entry, hentry, .inr hscope, hmatch⟩
  · rintro ⟨entry, hentry, hglobal | hscope, hmatch⟩
    · have hnull := hnone.mpr ⟨entry, hentry, hglobal, hmatch⟩
      rw [scopedValues, hnull] at h
      cases h
    · exact .inr ⟨entry, hentry, hscope, hmatch⟩

/-- An action is held in some scope, or globally. -/
theorem holdsAction_iff {requirement : CapabilityRequirement} {entries : List PermissionEntry} :
    holdsAction requirement entries = true ↔
      if requirement.access = .app then permits entries requirement.action none = true
      else (∃ scope, permits entries requirement.action (some scope) = true) ∨
      permits entries requirement.action none = true := by
  rw [holdsAction]
  split
  · simp only [permits_none_iff, List.any_eq_true, List.mem_singleton, exists_eq_left]
  · rw [List.any_eq_true]
    constructor
    · rintro ⟨entry, hentry, hpermits⟩
      cases hscope : entry.scope with
      | none =>
        rw [hscope, permits_none_iff] at hpermits
        obtain ⟨_, hmem, hglobal, hmatch⟩ := hpermits
        rw [List.mem_singleton.mp hmem] at hglobal hmatch
        exact .inr ((permits_none_iff).mpr ⟨entry, hentry, hglobal, hmatch⟩)
      | some scope =>
        rw [hscope, permits_some_iff] at hpermits
        obtain ⟨_, hmem, hadmits, hmatch⟩ := hpermits
        rw [List.mem_singleton.mp hmem] at hadmits hmatch
        exact .inl ⟨scope, (permits_some_iff).mpr ⟨entry, hentry, hadmits, hmatch⟩⟩
    · have hheld : ∀ entry ∈ entries, matchAction entry.action requirement.action = true →
          ∃ entry ∈ entries, permits [entry] requirement.action entry.scope = true := by
        intro entry hentry hmatch
        refine ⟨entry, hentry, ?_⟩
        cases hscope : entry.scope with
        | none => exact (permits_none_iff).mpr ⟨entry, List.mem_singleton_self _, hscope, hmatch⟩
        | some scope => exact (permits_some_iff).mpr ⟨entry, List.mem_singleton_self _, .inr hscope, hmatch⟩
      rintro (⟨scope, hpermits⟩ | hpermits)
      · obtain ⟨entry, hentry, _, hmatch⟩ := (permits_some_iff).mp hpermits
        exact hheld entry hentry hmatch
      · obtain ⟨entry, hentry, _, hmatch⟩ := (permits_none_iff).mp hpermits
        exact hheld entry hentry hmatch

/-! ## More entries, and the same entries -/

section
variable {entries more : List PermissionEntry} (h : entries ⊆ more)
include h

theorem permits_mono {scope : Option Scope} (hpermits : permits entries action scope = true) :
    permits more action scope = true := by
  obtain ⟨entry, hentry, hadmits⟩ := List.any_eq_true.mp hpermits
  exact List.any_eq_true.mpr ⟨entry, h hentry, hadmits⟩

theorem holdsAction_mono {requirement : CapabilityRequirement} (hholds : holdsAction requirement entries = true) :
    holdsAction requirement more = true := by
  rw [holdsAction_iff] at hholds ⊢
  split at hholds
  · rename_i happ
    rw [if_pos happ]
    exact permits_mono h hholds
  · rename_i happ
    rw [if_neg happ]
    exact hholds.imp (fun ⟨scope, hpermits⟩ => ⟨scope, permits_mono h hpermits⟩) (permits_mono h)

theorem satisfies_mono {requirement : EndpointRequirement} (hmet : satisfies requirement entries = true) :
    satisfies requirement more = true := by
  cases requirement with
  | authenticated => rfl
  | member =>
    have hne : entries ≠ [] := List.ne_nil_of_length_pos (of_decide_eq_true hmet)
    obtain ⟨entry, hentry⟩ := List.exists_mem_of_ne_nil entries hne
    exact decide_eq_true (List.length_pos_of_mem (h hentry))
  | action capability => exact holdsAction_mono h hmet
  | capabilities capabilities =>
    rw [satisfies, List.all_eq_true] at hmet ⊢
    exact fun capability hcapability => holdsAction_mono h (hmet capability hcapability)

/-- A larger set lists no less: everything, or at least the same values. -/
theorem scopedValues_mono {wide : List String} (hwide : scopedValues more action dimension = some wide) :
    ∃ values, scopedValues entries action dimension = some values ∧ values ⊆ wide := by
  cases hvalues : scopedValues entries action dimension with
  | none =>
    have hnull : scopedValues more action dimension = none :=
      (scopedValues_none_iff).mpr (permits_mono h ((scopedValues_none_iff).mp hvalues))
    rw [hwide] at hnull
    cases hnull
  | some values =>
    refine ⟨values, rfl, fun v hv => ?_⟩
    exact ((scopedValues_some hwide).2 v).mpr (permits_mono h (((scopedValues_some hvalues).2 v).mp hv))

end

/-- Sets of the same entries are read the same. -/
theorem readers_congr {entries other : List PermissionEntry} (h : entries ⊆ other) (h' : other ⊆ entries)
    (action dimension : String)
    (scope : Option Scope) (requirement : EndpointRequirement) :
    permits entries action scope = permits other action scope ∧ satisfies requirement entries = satisfies requirement other ∧
      (scopedValues entries action dimension = none ↔ scopedValues other action dimension = none) ∧
      ∀ values values', scopedValues entries action dimension = some values → scopedValues other action dimension = some values' →
        values.Perm values' := by
  refine ⟨Bool.eq_iff_iff.mpr ⟨permits_mono h, permits_mono h'⟩,
    Bool.eq_iff_iff.mpr ⟨satisfies_mono h, satisfies_mono h'⟩, ?_, ?_⟩
  · rw [scopedValues_none_iff, scopedValues_none_iff]
    exact ⟨permits_mono h, permits_mono h'⟩
  · intro values values' hvalues hvalues'
    obtain ⟨hnodup, hmem⟩ := scopedValues_some hvalues
    obtain ⟨hnodup', hmem'⟩ := scopedValues_some hvalues'
    refine (List.perm_ext_iff_of_nodup hnodup hnodup').mpr fun v => ?_
    rw [hmem v, hmem' v]
    exact ⟨permits_mono h, permits_mono h'⟩

/-! ## The readers agree -/

/-- One access relation behind the three readers: what it means, that more entries grant no less,
    and that a rearranged set from other sources is read the same. -/
theorem readers_agree (resolved : List ResolvedEntry) (action dimension : String) :
    (scopedValues (entriesOf resolved) action dimension = none ↔ permits (entriesOf resolved) action none = true) ∧
      (∀ values, scopedValues (entriesOf resolved) action dimension = some values →
        values.Nodup ∧ ∀ v, v ∈ values ↔ permits (entriesOf resolved) action (some ⟨dimension, v⟩) = true) ∧
      (∀ access, satisfies (.action ⟨action, access⟩) (entriesOf resolved) = true ↔
        if access = .app then permits (entriesOf resolved) action none = true
        else (∃ scope, permits (entriesOf resolved) action (some scope) = true) ∨
        permits (entriesOf resolved) action none = true) ∧
      (∀ capabilities, satisfies (.capabilities capabilities) (entriesOf resolved) = true ↔
        ∀ capability ∈ capabilities, satisfies (.action capability.2) (entriesOf resolved) = true) ∧
      (∀ more, resolved ⊆ more →
        (∀ scope, permits (entriesOf resolved) action scope = true → permits (entriesOf more) action scope = true) ∧
        (∀ requirement, satisfies requirement (entriesOf resolved) = true → satisfies requirement (entriesOf more) = true) ∧
        ∀ wide, scopedValues (entriesOf more) action dimension = some wide →
          ∃ values, scopedValues (entriesOf resolved) action dimension = some values ∧ values ⊆ wide) ∧
      ∀ other, (entriesOf resolved).Perm (entriesOf other) →
        (∀ scope, permits (entriesOf resolved) action scope = permits (entriesOf other) action scope) ∧
        (∀ requirement, satisfies requirement (entriesOf resolved) = satisfies requirement (entriesOf other)) ∧
        (scopedValues (entriesOf resolved) action dimension = none ↔ scopedValues (entriesOf other) action dimension = none) ∧
        ∀ values values', scopedValues (entriesOf resolved) action dimension = some values →
          scopedValues (entriesOf other) action dimension = some values' → values.Perm values' := by
  refine ⟨scopedValues_none_iff, fun values hvalues => scopedValues_some hvalues, fun access => holdsAction_iff, ?_, ?_, ?_⟩
  · intro capabilities
    rw [satisfies, List.all_eq_true]
    rfl
  · intro more hmore
    have hentries : entriesOf resolved ⊆ entriesOf more := List.map_subset _ hmore
    exact ⟨fun scope => permits_mono hentries, fun requirement => satisfies_mono hentries, fun wide => scopedValues_mono hentries⟩
  · intro other hperm
    have hcongr := readers_congr hperm.subset hperm.symm.subset
    exact ⟨fun scope => (hcongr action dimension scope .member).1,
      fun requirement => (hcongr action dimension none requirement).2.1, (hcongr action dimension none .member).2.2⟩

end Fabrika.AuthCore
