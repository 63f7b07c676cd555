/-
  Fabrika.Lib.Select — one pass for the least element that also notices ties.

  The loop keeps the least element so far by a three-way comparison and a flag: a strictly
  smaller element replaces it and clears the flag, an equal one sets it. When the
  comparison is that of a key into a linear order, the element is `List.argmin` of the key
  (`scan_best`). Where no two elements share a key, no tie survives (`scan_not_tied`), the
  element is the one strictly below every other (`scan_best_eq_some`), and the order of
  the list does not matter (`scan_best_perm`).
-/

import Mathlib.Data.List.MinMax
import Mathlib.Data.List.Pairwise

namespace Fabrika.Lib.Select

variable {α κ : Type*}

@[ext]
structure Scan (α : Type*) where
  best : Option α
  tied : Bool

def Scan.start : Scan α := ⟨none, false⟩

def Scan.step (compare : α → α → Int) (s : Scan α) (x : α) : Scan α :=
  let order := match s.best with
    | none => -1
    | some b => compare x b
  if order < 0 then ⟨some x, false⟩
  else if order = 0 then { s with tied := true }
  else s

def scan (compare : α → α → Int) (xs : List α) : Scan α := xs.foldl (Scan.step compare) Scan.start

/-- `compare` is the three-way comparison of `key`. -/
structure Compares [LinearOrder κ] (compare : α → α → Int) (key : α → κ) : Prop where
  neg : ∀ a b, compare a b < 0 ↔ key a < key b
  zero : ∀ a b, compare a b = 0 ↔ key a = key b

section
variable [LinearOrder κ] {compare : α → α → Int} {key : α → κ}

theorem scan_concat (compare : α → α → Int) (xs : List α) (x : α) :
    scan compare (xs ++ [x]) = (scan compare xs).step compare x := by
  simp [scan, List.foldl_append]

theorem scan_best (hc : Compares compare key) (xs : List α) : (scan compare xs).best = xs.argmin key := by
  induction xs using List.reverseRecOn with
  | nil => rfl
  | append_singleton xs x ih =>
    rw [scan_concat, List.argmin_concat, ← ih, Scan.step]
    cases hb : (scan compare xs).best with
    | none => simp
    | some b =>
      by_cases hlt : key x < key b
      · simp [(hc.neg x b).mpr hlt, hlt]
      · have hge : ¬ compare x b < 0 := fun h => hlt ((hc.neg x b).mp h)
        simp only [hge, hlt, if_false]
        split
        · rfl
        · exact hb

variable {xs : List α}

theorem scan_not_tied (hc : Compares compare key) (hd : xs.Pairwise (fun a b => key a ≠ key b)) :
    (scan compare xs).tied = false := by
  induction xs using List.reverseRecOn with
  | nil => rfl
  | append_singleton xs x ih =>
    obtain ⟨hxs, -, hne⟩ := List.pairwise_append.mp hd
    rw [scan_concat, Scan.step]
    cases hb : (scan compare xs).best with
    | none => simp
    | some b =>
      have hmem : b ∈ xs := List.argmin_mem (by rw [← scan_best hc]; exact hb)
      have hx : ¬ compare x b = 0 := fun h => hne b hmem x (by simp) ((hc.zero x b).mp h).symm
      simp only [hx, if_false]
      split
      · rfl
      · exact ih hxs

theorem argmin_eq_iff (hd : xs.Pairwise (fun a b => key a ≠ key b)) {m : α} :
    xs.argmin key = some m ↔ m ∈ xs ∧ ∀ x ∈ xs, x ≠ m → key m < key x := by
  have : Std.Symm fun a b => key a ≠ key b := ⟨fun _ _ h => h.symm⟩
  constructor
  · intro h
    refine ⟨List.argmin_mem h, fun x hx hne => lt_of_le_of_ne (List.le_of_mem_argmin hx h) ?_⟩
    exact hd.forall (List.argmin_mem h) hx hne.symm
  · rintro ⟨hm, hmin⟩
    cases hb : xs.argmin key with
    | none => rw [List.argmin_eq_none.mp hb] at hm; cases hm
    | some b =>
      by_contra hne
      have hlt := hmin b (List.argmin_mem hb) (fun e => hne (by rw [e]))
      exact absurd (List.le_of_mem_argmin hm hb) (not_le_of_gt hlt)

theorem scan_best_eq_none (hc : Compares compare key) : (scan compare xs).best = none ↔ xs = [] := by
  rw [scan_best hc, List.argmin_eq_none]

theorem scan_best_eq_some (hc : Compares compare key) (hd : xs.Pairwise (fun a b => key a ≠ key b)) {m : α} :
    (scan compare xs).best = some m ↔ m ∈ xs ∧ ∀ x ∈ xs, x ≠ m → compare m x < 0 := by
  simp only [scan_best hc, argmin_eq_iff hd, hc.neg]

theorem scan_best_perm (hc : Compares compare key) {ys : List α} (hp : xs.Perm ys) (hd : xs.Pairwise (fun a b => key a ≠ key b)) :
    (scan compare xs).best = (scan compare ys).best := by
  have hd' := hp.pairwise hd (fun h => Ne.symm h)
  refine Option.ext fun m => ?_
  simp only [scan_best_eq_some hc hd, scan_best_eq_some hc hd', hp.mem_iff]

end

end Fabrika.Lib.Select
