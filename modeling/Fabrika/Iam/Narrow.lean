/-
  Fabrika.Iam.Narrow — narrow-permissions.ts: live permissions under a ceiling.

  Every held entry meets every limit; a pair that overlaps gives its narrower action and its
  narrower scope. A key of text leaves out an entry given before, and two entries can share one
  key without being one entry.
-/

import Fabrika.AuthCore.Patterns
import Fabrika.AuthCore.Permissions

namespace Fabrika.Iam.Narrow

open Fabrika.AuthCore

/-- A grant of a ceiling; an absent scope is global. -/
structure KeyGrant where
  action : String
  scope : Option Scope
  deriving DecidableEq

def KeyGrant.entry (grant : KeyGrant) : PermissionEntry := ⟨grant.action, grant.scope⟩

/-- `some none` is global; `none` means the two scopes do not overlap. -/
def narrowerScope (held limit : Option Scope) : Option (Option Scope) :=
  match held, limit with
  | none, limit => some limit
  | held, none => some held
  | some held, some limit => if held.type = limit.type ∧ held.value = limit.value then some (some held) else none

def narrowerAction (held limit : String) : Option String :=
  if matchAction limit held then some held else if matchAction held limit then some limit else none

/-- The entry of one pair, where it overlaps. -/
def narrower (held : ResolvedEntry) (limit : KeyGrant) : Option ResolvedEntry :=
  match narrowerAction held.entry.action limit.action, narrowerScope held.entry.scope limit.scope with
  | some action, some scope => some ⟨⟨action, scope⟩, held.source⟩
  | _, _ => none

def sourceText : PermissionSource → String
  | .grant => "grant"
  | .bootstrap => "bootstrap"
  | .terminal => "terminal"
  | .group ref => "group:" ++ ref

def scopeText : Option Scope → String
  | none => ""
  | some scope => scope.type ++ ":" ++ scope.value

def entryKey (e : ResolvedEntry) : String := e.entry.action ++ " " ++ scopeText e.entry.scope ++ " " ++ sourceText e.source

/-- The entries pushed, and the keys seen. -/
structure Narrowed where
  result : List ResolvedEntry
  seen : List String

/-- The body of the inner loop. -/
def meet (held : ResolvedEntry) (state : Narrowed) (limit : KeyGrant) : Narrowed :=
  match narrower held limit with
  | none => state
  | some e => if state.seen.contains (entryKey e) then state else ⟨state.result ++ [e], state.seen ++ [entryKey e]⟩

def narrowPermissions (live : List ResolvedEntry) (ceiling : List KeyGrant) : List ResolvedEntry :=
  (live.foldl (fun state held => ceiling.foldl (meet held) state) ⟨[], []⟩).result

/-! ## What it is for -/

/-- The narrower entries of all overlapping pairs, in the order they are met. -/
def overlaps (live : List ResolvedEntry) (ceiling : List KeyGrant) : List ResolvedEntry :=
  live.flatMap fun held => ceiling.filterMap (narrower held)

/-- The result grants what both sides grant, of the actions an endpoint can ask for. -/
def Exact (live : List ResolvedEntry) (ceiling : List KeyGrant) : Prop :=
  ∀ action scope, Concrete action →
    (permits (entriesOf (narrowPermissions live ceiling)) action scope = true ↔
      permits (entriesOf live) action scope = true ∧ permits (ceiling.map KeyGrant.entry) action scope = true)

/-- No entry before it in the list has its key. -/
def IsFirst (entries : List ResolvedEntry) (e : ResolvedEntry) : Prop :=
  ∃ before after, entries = before ++ e :: after ∧ entryKey e ∉ before.map entryKey

/-- Whatever the second entry grants the first one grants. -/
def Covers (wide narrow : PermissionEntry) : Prop :=
  matchAction wide.action narrow.action = true ∧ (wide.scope = none ∨ wide.scope = narrow.scope)

/-- Each overlapping pair's entry is covered by one that is the first of its key, or matches no
    action without `*`. -/
def KeysTell (live : List ResolvedEntry) (ceiling : List KeyGrant) : Prop :=
  ∀ e ∈ overlaps live ceiling, Applies e.entry.action →
    ∃ first, IsFirst (overlaps live ceiling) first ∧ Covers first.entry e.entry

end Fabrika.Iam.Narrow
