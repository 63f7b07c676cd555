/-
  Fabrika.Lib.Search — the first occurrence of one list in another, and loops that read more of
  an input until they find what they look for.

  `indexOfPart` is `buffer.indexOf(part)`. What is found stays found when more is read
  (`indexOfPart_append`); what is not found before more is read ends past it (`lt_of_indexOfPart_none`),
  so all but the last `part.length - 1` items may be let go (`indexOfPart_drop`).

  `fillUntil` is a loop that tries its buffer and takes the next chunk of its input when the try
  fails. `fillUntil_rest` and `fillUntil_found` are all a program that uses it needs.
-/

import Mathlib.Data.List.Infix

namespace Fabrika.Lib

section
variable {α : Type} {part : List α}

theorem prefix_drop_append {text more : List α} {k : Nat} (h : part <+: text.drop k) (hk : k ≤ text.length) :
    part <+: (text ++ more).drop k := by
  rw [List.drop_append_of_le_length hk]
  exact h.trans (List.prefix_append _ _)

theorem prefix_drop_of_append {text more : List α} {k : Nat} (h : part <+: (text ++ more).drop k)
    (hk : k + part.length ≤ text.length) :
    part <+: text.drop k := by
  rw [List.drop_append_of_le_length (by omega)] at h
  refine List.prefix_of_prefix_length_le h (List.prefix_append _ _) ?_
  rw [List.length_drop]
  omega

end

section
variable {α : Type} [DecidableEq α] {part : List α}

/-! ## The first occurrence -/

/-- Where the list first holds the part. -/
def indexOfPart (part : List α) : List α → Option Nat
  | [] => if part = [] then some 0 else none
  | a :: rest => if part.isPrefixOf (a :: rest) then some 0 else (indexOfPart part rest).map (· + 1)

variable {k : Nat} {text : List α}

theorem indexOfPart_eq_some :
    indexOfPart part text = some k ↔ k ≤ text.length ∧ part <+: text.drop k ∧ ∀ j < k, ¬part <+: text.drop j := by
  induction text generalizing k with
  | nil =>
    rw [indexOfPart]
    by_cases hpart : part = []
    · simp only [hpart, if_true, Option.some.injEq, List.length_nil, Nat.le_zero, List.drop_nil, List.nil_prefix,
        not_true_eq_false]
      constructor
      · rintro rfl
        exact ⟨rfl, trivial, fun j hj => absurd hj (Nat.not_lt_zero j)⟩
      · exact fun h => h.1.symm
    · simp [hpart]
  | cons a rest ih =>
    rw [indexOfPart]
    by_cases hhere : part <+: a :: rest
    · rw [if_pos (List.isPrefixOf_iff_prefix.mpr hhere), Option.some.injEq]
      constructor
      · rintro rfl
        exact ⟨Nat.zero_le _, hhere, fun j hj => absurd hj (Nat.not_lt_zero j)⟩
      · intro ⟨_, _, hearlier⟩
        by_contra hk
        exact hearlier 0 (by omega) hhere
    · rw [if_neg (fun h => hhere (List.isPrefixOf_iff_prefix.mp h)), Option.map_eq_some_iff]
      constructor
      · rintro ⟨k, hk, rfl⟩
        obtain ⟨hle, hprefix, hearlier⟩ := ih.mp hk
        refine ⟨Nat.succ_le_succ hle, hprefix, fun j hj => ?_⟩
        cases j with
        | zero => exact hhere
        | succ j => exact hearlier j (by omega)
      · intro ⟨hle, hprefix, hearlier⟩
        cases k with
        | zero => exact absurd hprefix hhere
        | succ k => exact ⟨k, ih.mpr ⟨Nat.le_of_succ_le_succ hle, hprefix, fun j hj => hearlier (j + 1) (by omega)⟩, rfl⟩

theorem indexOfPart_eq_none : indexOfPart part text = none ↔ ∀ k ≤ text.length, ¬part <+: text.drop k := by
  induction text with
  | nil =>
    rw [indexOfPart]
    by_cases hpart : part = [] <;> simp [hpart]
  | cons a rest ih =>
    rw [indexOfPart]
    by_cases hhere : part <+: a :: rest
    · rw [if_pos (List.isPrefixOf_iff_prefix.mpr hhere)]
      constructor
      · intro h
        cases h
      · exact fun h => absurd hhere (h 0 (Nat.zero_le _))
    · rw [if_neg (fun h => hhere (List.isPrefixOf_iff_prefix.mp h)), Option.map_eq_none_iff, ih]
      constructor
      · intro h k hk
        cases k with
        | zero => exact hhere
        | succ k => exact h k (Nat.le_of_succ_le_succ hk)
      · exact fun h k hk => h (k + 1) (Nat.succ_le_succ hk)

/-- The list around the first occurrence. -/
theorem split_of_indexOfPart (h : indexOfPart part text = some k) :
    text = text.take k ++ part ++ text.drop (k + part.length) := by
  obtain ⟨after, hafter⟩ := ((indexOfPart_eq_some).mp h).2.1
  have hdrop : text.drop (k + part.length) = after := by
    rw [← List.drop_drop, ← hafter, List.drop_left]
  rw [hdrop, List.append_assoc, hafter, List.take_append_drop]

theorem length_of_indexOfPart (h : indexOfPart part text = some k) : k + part.length ≤ text.length := by
  obtain ⟨hle, hprefix, -⟩ := (indexOfPart_eq_some).mp h
  have hlength := hprefix.length_le
  rw [List.length_drop] at hlength
  omega

/-- What is found stays found. -/
theorem indexOfPart_append (h : indexOfPart part text = some k) (more : List α) : indexOfPart part (text ++ more) = some k := by
  have hlength := length_of_indexOfPart h
  obtain ⟨hle, hprefix, hearlier⟩ := (indexOfPart_eq_some).mp h
  refine (indexOfPart_eq_some).mpr ⟨by rw [List.length_append]; omega, prefix_drop_append hprefix hle, fun j hj hother => ?_⟩
  exact hearlier j hj (prefix_drop_of_append hother (by omega))

/-- What ends within the list is found in it. -/
theorem indexOfPart_of_append {more : List α} (h : indexOfPart part (text ++ more) = some k)
    (hk : k + part.length ≤ text.length) : indexOfPart part text = some k := by
  obtain ⟨-, hprefix, hearlier⟩ := (indexOfPart_eq_some).mp h
  refine (indexOfPart_eq_some).mpr ⟨by omega, prefix_drop_of_append hprefix hk, fun j hj hother => ?_⟩
  exact hearlier j hj (prefix_drop_append hother (by omega))

/-- The first occurrence is a matter of the list up to its end. -/
theorem indexOfPart_eq_some_iff_split :
    indexOfPart part text = some k ↔ ∃ before later, text = before ++ part ++ later ∧
    indexOfPart part (before ++ part) = some before.length ∧ k = before.length := by
  constructor
  · intro h
    have hsplit := split_of_indexOfPart h
    have hlength : (text.take k).length = k := by
      rw [List.length_take]
      exact Nat.min_eq_left ((indexOfPart_eq_some).mp h).1
    refine ⟨text.take k, text.drop (k + part.length), hsplit, ?_, hlength.symm⟩
    rw [hlength]
    rw [hsplit] at h
    refine indexOfPart_of_append h ?_
    rw [List.length_append, hlength]
  · rintro ⟨before, later, rfl, hfirst, rfl⟩
    exact indexOfPart_append hfirst later

/-- A list is parted at a first occurrence in one way. -/
theorem first_inj {before before' later later' : List α} (h : before ++ part ++ later = before' ++ part ++ later')
    (hfirst : indexOfPart part (before ++ part) = some before.length)
    (hfirst' : indexOfPart part (before' ++ part) = some before'.length) :
    before = before' ∧ later = later' := by
  have hindex : indexOfPart part (before ++ part ++ later) = some before.length :=
    (indexOfPart_eq_some_iff_split).mpr ⟨before, later, rfl, hfirst, rfl⟩
  have hindex' : indexOfPart part (before ++ part ++ later) = some before'.length :=
    (indexOfPart_eq_some_iff_split).mpr ⟨before', later', h, hfirst', rfl⟩
  rw [hindex] at hindex'
  rw [List.append_assoc, List.append_assoc] at h
  obtain ⟨hbefore, hafter⟩ := List.append_inj h (Option.some.inj hindex')
  exact ⟨hbefore, List.append_cancel_left hafter⟩

theorem lt_of_indexOfPart_none {more : List α} (hnone : indexOfPart part text = none)
    (h : indexOfPart part (text ++ more) = some k) : text.length < k + part.length := by
  by_contra hle
  have hfound := indexOfPart_of_append h (by omega)
  rw [hnone] at hfound
  cases hfound

/-- Where nothing is found, all but the last items, one fewer than the part has, may go. -/
theorem indexOfPart_drop {n : Nat} (hnone : indexOfPart part text = none) (hn : n + part.length ≤ text.length + 1)
    (more : List α) : indexOfPart part (text ++ more) = (indexOfPart part ((text ++ more).drop n)).map (n + ·) := by
  have hpart : 0 < part.length := by
    rw [List.length_pos_iff]
    rintro rfl
    exact (indexOfPart_eq_none).mp hnone 0 (Nat.zero_le _) List.nil_prefix
  have hearly : ∀ j < n, ¬part <+: (text ++ more).drop j := fun j hj hprefix =>
    (indexOfPart_eq_none).mp hnone j (by omega) (prefix_drop_of_append hprefix (by omega))
  cases hfound : indexOfPart part ((text ++ more).drop n) with
  | none =>
    rw [Option.map_none, indexOfPart_eq_none]
    intro k hk hprefix
    by_cases hkn : k < n
    · exact hearly k hkn hprefix
    · refine (indexOfPart_eq_none).mp hfound (k - n) (by rw [List.length_drop]; omega) ?_
      rwa [List.drop_drop, Nat.add_sub_cancel' (by omega)]
  | some k =>
    obtain ⟨hle, hprefix, hbefore⟩ := (indexOfPart_eq_some).mp hfound
    rw [List.length_drop] at hle
    rw [List.drop_drop] at hprefix
    rw [Option.map_some, indexOfPart_eq_some]
    refine ⟨by rw [List.length_append] at hle ⊢; omega, hprefix, fun j hj hother => ?_⟩
    by_cases hjn : j < n
    · exact hearly j hjn hother
    · refine hbefore (j - n) (by omega) ?_
      rwa [List.drop_drop, Nat.add_sub_cancel' (by omega)]

/-- What does not hold the part's first item is passed over. -/
theorem indexOfPart_append_of_not_mem {a : α} {xs : List α} (h : a ∉ xs) (part rest : List α) :
    indexOfPart (a :: part) (xs ++ rest) = (indexOfPart (a :: part) rest).map (xs.length + ·) := by
  induction xs with
  | nil =>
    show _ = (indexOfPart (a :: part) rest).map (0 + ·)
    simp
  | cons x xs ih =>
    obtain ⟨hx, hxs⟩ := List.ne_and_not_mem_of_not_mem_cons h
    have hhere : ¬(a :: part).isPrefixOf (x :: (xs ++ rest)) = true := by
      rw [List.isPrefixOf_iff_prefix, List.cons_prefix_cons]
      exact fun hprefix => hx hprefix.1
    rw [List.cons_append, indexOfPart, if_neg hhere, ih hxs, Option.map_map, List.length_cons]
    congr 1
    funext k
    exact Nat.add_right_comm xs.length k 1

/-- A part whose first item it holds once does not begin inside a list that is without it. -/
theorem indexOfPart_concat {a : α} {xs : List α} (ha : a ∉ part) (h : ¬a :: part <:+: xs) :
    indexOfPart (a :: part) (xs ++ a :: part) = some xs.length := by
  refine (indexOfPart_eq_some).mpr ⟨by rw [List.length_append]; omega, by rw [List.drop_left], fun j hj hprefix => ?_⟩
  rw [List.drop_append_of_le_length hj.le] at hprefix
  by_cases hin : (a :: part).length ≤ (xs.drop j).length
  · have hwithin := List.prefix_of_prefix_length_le hprefix (List.prefix_append _ _) hin
    exact h (hwithin.isInfix.trans (List.drop_suffix j xs).isInfix)
  · -- The part's own first item stands in it where the list ends.
    have hpos : 0 < (xs.drop j).length := by
      rw [List.length_drop]
      omega
    obtain ⟨later, hlater⟩ := hprefix
    have hitem : (a :: part ++ later)[(xs.drop j).length]? = some a := by
      rw [hlater, List.getElem?_append_right le_rfl, Nat.sub_self, List.getElem?_cons_zero]
    rw [List.getElem?_append_left (by omega)] at hitem
    obtain ⟨m, hm⟩ := Nat.exists_eq_succ_of_ne_zero (Nat.pos_iff_ne_zero.mp hpos)
    rw [hm, List.getElem?_cons_succ] at hitem
    exact ha (List.mem_of_getElem? hitem)

end

/-! ## Reading until a try succeeds -/

section
variable {α β : Type} {attempt : List α → Option β}

/-- Tries the buffer, and again with the next chunk; `none` once the input ended. -/
def fillUntil (attempt : List α → Option β) : List α → List (List α) → Option β × List α × List (List α)
  | buffer, [] => (attempt buffer, buffer, [])
  | buffer, chunk :: chunks =>
    match attempt buffer with
    | some found => (some found, buffer, chunk :: chunks)
    | none => fillUntil attempt (buffer ++ chunk) chunks

/-- Nothing is lost. -/
theorem fillUntil_rest (attempt : List α → Option β) (buffer : List α) (chunks : List (List α)) :
    (fillUntil attempt buffer chunks).2.1 ++ (fillUntil attempt buffer chunks).2.2.flatten = buffer ++ chunks.flatten := by
  induction chunks generalizing buffer with
  | nil => rfl
  | cons chunk chunks ih =>
    rw [fillUntil]
    cases attempt buffer with
    | some found => rfl
    | none =>
      dsimp only
      rw [ih, List.flatten_cons, List.append_assoc]

/-- What is answered is what the try answers on the buffer that is left, and nothing is answered
    only at the input's end. -/
theorem fillUntil_found (attempt : List α → Option β) (buffer : List α) (chunks : List (List α)) :
    (fillUntil attempt buffer chunks).1 = attempt (fillUntil attempt buffer chunks).2.1
      ∧ ((fillUntil attempt buffer chunks).1 = none → (fillUntil attempt buffer chunks).2.2 = []) := by
  induction chunks generalizing buffer with
  | nil => exact ⟨rfl, fun _ => rfl⟩
  | cons chunk chunks ih =>
    rw [fillUntil]
    cases hattempt : attempt buffer with
    | some found => exact ⟨hattempt.symm, fun h => nomatch h⟩
    | none => exact ih _

/-- The try's own first success needs no more input. -/
theorem fillUntil_of_some {buffer : List α} {found : β} (h : attempt buffer = some found) (chunks : List (List α)) :
    fillUntil attempt buffer chunks = (some found, buffer, chunks) := by
  cases chunks with
  | nil => rw [fillUntil, h]
  | cons chunk chunks => rw [fillUntil, h]

end

end Fabrika.Lib
