/-
  Fabrika.AuthCore.Patterns — action patterns as sets of actions.

  A pattern is its fixed part, and is open (every action from the fixed part on) or exact. Two
  patterns that share an action are nested, and the wider is the one `matchAction` matches with
  the other read as an action: `match_trans` and `match_nested`. A pattern that no pattern of a
  list contains has an action that none of them matches: `exists_unmatched`.
-/

import Fabrika.AuthCore.Requirement

namespace Fabrika.AuthCore

open Fabrika.Lib

/-- `*` and `x.*`. -/
def Open (pattern : String) : Prop := pattern = "*" ∨ ['.', '*'] <:+ pattern.toList

instance (pattern : String) : Decidable (Open pattern) := inferInstanceAs (Decidable (_ ∨ _))

/-- A pattern without its trailing `*`. -/
def fixedPart (pattern : String) : List Char := if Open pattern then pattern.toList.dropLast else pattern.toList

/-- An action an endpoint can ask for. -/
def Concrete (action : String) : Prop := '*' ∉ action.toList

/-- A pattern that matches some concrete action. -/
def Applies (pattern : String) : Prop := '*' ∉ fixedPart pattern

theorem fixedPart_star : fixedPart "*" = [] := by decide

variable {pattern action : String}

theorem fixedPart_exact (h : ¬ Open pattern) : fixedPart pattern = pattern.toList := if_neg h

/-- An open pattern's fixed part is empty or ends at a dot. -/
theorem Open.toList (h : Open pattern) : pattern.toList = fixedPart pattern ++ ['*'] := by
  rw [fixedPart, if_pos h]
  rcases h with rfl | ⟨front, h⟩
  · decide
  · rw [← h]
    simp

theorem Open.dot (h : Open pattern) : fixedPart pattern = [] ∨ ∃ front, fixedPart pattern = front ++ ['.'] := by
  rcases h with rfl | ⟨front, hfront⟩
  · exact .inl fixedPart_star
  · refine .inr ⟨front, ?_⟩
    rw [fixedPart, if_pos (.inr ⟨front, hfront⟩), ← hfront]
    simp

theorem matchAction_open (h : Open pattern) : matchAction pattern action = true ↔ fixedPart pattern <+: action.toList := by
  unfold matchAction
  by_cases hstar : pattern = "*"
  · rw [if_pos hstar, hstar, fixedPart_star]
    exact ⟨fun _ => List.nil_prefix, fun _ => rfl⟩
  · have hend : Text.endsWith pattern ".*" = true := Text.endsWith_iff.mpr (h.resolve_left hstar)
    rw [if_neg hstar, if_pos hend, Text.startsWith_iff, String.toList_ofList, fixedPart, if_pos h]

theorem matchAction_exact (h : ¬ Open pattern) : matchAction pattern action = true ↔ pattern = action := by
  unfold matchAction
  have hend : ¬ Text.endsWith pattern ".*" = true := fun hend => h (.inr (Text.endsWith_iff.mp hend))
  rw [if_neg fun hstar => h (.inl hstar), if_neg hend]
  exact beq_iff_eq

theorem matchAction_self (pattern : String) : matchAction pattern pattern = true := by
  by_cases h : Open pattern
  · rw [matchAction_open h, h.toList]
    exact List.prefix_append _ _
  · exact (matchAction_exact h).mpr rfl

/-- An open pattern matches another as an action exactly when its fixed part starts the
    other's. -/
theorem matchAction_both_open {other : String} (h : Open pattern) (hother : Open other) :
    matchAction pattern other = true ↔ fixedPart pattern <+: fixedPart other := by
  rw [matchAction_open h, hother.toList]
  refine ⟨fun hprefix => ?_, fun hprefix => hprefix.trans (List.prefix_append _ _)⟩
  rcases List.prefix_concat_iff.mp hprefix with heq | hprefix
  · -- the whole of the other's text ends in `*`, and a fixed part in a dot
    rcases h.dot with hnil | ⟨front, hfront⟩
    · rw [hnil] at heq
      exact absurd heq.symm (by simp)
    · rw [hfront] at heq
      have hlast := List.append_inj_right' heq rfl
      cases hlast
  · exact hprefix

theorem match_trans {wide narrow action : String} (h : matchAction wide narrow = true) (ha : matchAction narrow action = true) :
    matchAction wide action = true := by
  by_cases hnarrow : Open narrow
  · by_cases hwide : Open wide
    · rw [matchAction_open hnarrow] at ha
      rw [matchAction_open hwide]
      exact ((matchAction_both_open hwide hnarrow).mp h).trans ha
    · cases (matchAction_exact hwide).mp h
      exact absurd hnarrow hwide
  · cases (matchAction_exact hnarrow).mp ha
    exact h

theorem match_nested {a b action : String} (ha : matchAction a action = true) (hb : matchAction b action = true) :
    matchAction a b = true ∨ matchAction b a = true := by
  by_cases hopenA : Open a
  · by_cases hopenB : Open b
    · rw [matchAction_both_open hopenA hopenB, matchAction_both_open hopenB hopenA]
      rw [matchAction_open hopenA] at ha
      rw [matchAction_open hopenB] at hb
      exact List.prefix_or_prefix_of_prefix ha hb
    · cases (matchAction_exact hopenB).mp hb
      exact .inl ha
  · cases (matchAction_exact hopenA).mp ha
    exact .inr hb

theorem applies_of_match (h : matchAction pattern action = true) (haction : Concrete action) : Applies pattern := by
  intro hmem
  by_cases hopen : Open pattern
  · exact haction (((matchAction_open hopen).mp h).subset hmem)
  · cases (matchAction_exact hopen).mp h
    rw [fixedPart_exact hopen] at hmem
    exact haction hmem

/-! ## An action of one pattern only -/

theorem exists_longer (patterns : List String) : ∃ n, ∀ p ∈ patterns, p.toList.length < n := by
  induction patterns with
  | nil => exact ⟨0, by simp⟩
  | cons p rest ih =>
    obtain ⟨n, hn⟩ := ih
    refine ⟨max n (p.toList.length + 1), fun q hq => ?_⟩
    rcases List.mem_cons.mp hq with rfl | hq
    · omega
    · have := hn q hq
      omega

/-- A prefix that ends at a dot, of a text with no dot past `front`. -/
theorem prefix_of_dotless {start front tail : List Char} (hdot : start = [] ∨ ∃ init, start = init ++ ['.']) (htail : '.' ∉ tail)
    (h : start <+: front ++ tail) : start <+: front := by
  rcases List.prefix_or_prefix_of_prefix h (List.prefix_append front tail) with hfront | ⟨rest, hrest⟩
  · exact hfront
  · rw [← hrest, List.prefix_append_right_inj] at h
    rcases List.eq_nil_or_concat rest with rfl | ⟨before, c, rfl⟩
    · rw [← hrest, List.append_nil]
    · have hc : c = '.' := by
        rcases hdot with rfl | ⟨init, rfl⟩
        · simp at hrest
        · rw [List.concat_eq_append, ← List.append_assoc] at hrest
          simpa using (List.append_inj' hrest rfl).2
      subst hc
      exact absurd (h.subset (by simp)) htail

/-- A concrete action the pattern matches, and no pattern of the list that does not match the
    pattern itself. -/
theorem exists_unmatched (hpattern : Applies pattern) {patterns : List String}
    (hnone : ∀ p ∈ patterns, matchAction p pattern = false) :
    ∃ action, Concrete action ∧ matchAction pattern action = true ∧ ∀ p ∈ patterns, matchAction p action = false := by
  by_cases hopen : Open pattern
  · obtain ⟨n, hn⟩ := exists_longer patterns
    let tail := List.replicate n 'x'
    have htail : ∀ c, c ∈ tail → c = 'x' := fun c hc => List.eq_of_mem_replicate hc
    have htext : (String.ofList (fixedPart pattern ++ tail)).toList = fixedPart pattern ++ tail := String.toList_ofList
    refine ⟨String.ofList (fixedPart pattern ++ tail), ?_, ?_, fun p hp => ?_⟩
    · intro hmem
      rw [htext] at hmem
      rcases List.mem_append.mp hmem with hfixed | hx
      · exact hpattern hfixed
      · exact absurd (htail _ hx) (by decide)
    · rw [matchAction_open hopen, htext]
      exact List.prefix_append _ _
    · rw [← Bool.not_eq_true]
      intro hmatch
      by_cases hp' : Open p
      · rw [matchAction_open hp', htext] at hmatch
        have hprefix := prefix_of_dotless hp'.dot (fun hdot => absurd (htail _ hdot) (by decide)) hmatch
        have hwider := (matchAction_both_open hp' hopen).mpr hprefix
        rw [hnone p hp] at hwider
        cases hwider
      · have heq := (matchAction_exact hp').mp hmatch
        have hlength := hn p hp
        rw [heq, htext, List.length_append, List.length_replicate] at hlength
        omega
  · refine ⟨pattern, ?_, matchAction_self pattern, hnone⟩
    have hmem := hpattern
    rw [Applies, fixedPart_exact hopen] at hmem
    exact hmem

end Fabrika.AuthCore
