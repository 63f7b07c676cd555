/-
  Fabrika.Lib.Keyset — rows in the order of a list of columns, some of their cells null, and
  reading them page by page after a cursor.

  A term orders the cells of one column, up or down, its nulls first or last; a list of terms
  orders rows by the first column that differs. It is a strict order (`rowBefore_trans`,
  `rowBefore_irrefl`), total where rows differ in an ordered column (`rowBefore_total`).

  `walk` reads a page, and the page after its cursor, until one has none. Where each read is a
  page of what follows the cursor in a list, the walk is the list (`walk_complete`).
-/

import Mathlib.Data.List.Sort
import Mathlib.Order.Defs.LinearOrder

namespace Fabrika.Lib.Keyset

/-! ## The order of rows -/

structure Term (C : Type) where
  column : C
  descending : Bool
  nullsFirst : Bool

section
variable {C V : Type} [LinearOrder V]

/-- The first cell comes before the second. -/
def cellBefore (term : Term C) : Option V → Option V → Prop
  | none, none => False
  | none, some _ => term.nullsFirst = true
  | some _, none => term.nullsFirst = false
  | some a, some b => if term.descending then b < a else a < b

instance (term : Term C) (a b : Option V) : Decidable (cellBefore term a b) :=
  match a, b with
  | none, none => isFalse id
  | none, some _ => inferInstanceAs (Decidable (_ = _))
  | some _, none => inferInstanceAs (Decidable (_ = _))
  | some a, some b => inferInstanceAs (Decidable (if term.descending then b < a else a < b))

def rowBefore : List (Term C) → (C → Option V) → (C → Option V) → Prop
  | [], _, _ => False
  | term :: rest, a, b =>
    cellBefore term (a term.column) (b term.column) ∨ (a term.column = b term.column ∧ rowBefore rest a b)

instance decidableRowBefore : (terms : List (Term C)) → (a b : C → Option V) → Decidable (rowBefore terms a b)
  | [], _, _ => isFalse id
  | _ :: rest, a, b =>
    have := decidableRowBefore rest a b
    inferInstanceAs (Decidable (_ ∨ _))

theorem cellBefore_some (term : Term C) (a b : V) :
    cellBefore term (some a) (some b) ↔ if term.descending then b < a else a < b := Iff.rfl

theorem cellBefore_irrefl (term : Term C) (a : Option V) : ¬cellBefore term a a := by
  cases a with
  | none => exact id
  | some a =>
    rw [cellBefore_some]
    split
    · exact lt_irrefl a
    · exact lt_irrefl a

theorem cellBefore_trans {term : Term C} {a b c : Option V} (hab : cellBefore term a b) (hbc : cellBefore term b c) :
    cellBefore term a c := by
  cases a with
  | none =>
    cases b with
    | none => exact absurd hab id
    | some b =>
      cases c with
      | none =>
        have hfirst : term.nullsFirst = true := hab
        have hlast : term.nullsFirst = false := hbc
        rw [hfirst] at hlast
        cases hlast
      | some c => exact hab
  | some a =>
    cases b with
    | none =>
      cases c with
      | none => exact absurd hbc id
      | some c =>
        have hlast : term.nullsFirst = false := hab
        have hfirst : term.nullsFirst = true := hbc
        rw [hfirst] at hlast
        cases hlast
    | some b =>
      cases c with
      | none => exact hbc
      | some c =>
        rw [cellBefore_some] at hab hbc ⊢
        by_cases hdescending : term.descending = true
        · rw [if_pos hdescending] at hab hbc ⊢
          exact lt_trans hbc hab
        · rw [if_neg hdescending] at hab hbc ⊢
          exact lt_trans hab hbc

theorem cellBefore_total (term : Term C) (a b : Option V) : cellBefore term a b ∨ a = b ∨ cellBefore term b a := by
  cases a with
  | none =>
    cases b with
    | none => exact .inr (.inl rfl)
    | some b =>
      by_cases hfirst : term.nullsFirst = true
      · exact .inl hfirst
      · exact .inr (.inr (eq_false_of_ne_true hfirst))
  | some a =>
    cases b with
    | none =>
      by_cases hfirst : term.nullsFirst = true
      · exact .inr (.inr hfirst)
      · exact .inl (eq_false_of_ne_true hfirst)
    | some b =>
      rw [cellBefore_some, cellBefore_some]
      rcases lt_trichotomy a b with hlt | rfl | hgt
      · split
        · exact .inr (.inr hlt)
        · exact .inl hlt
      · exact .inr (.inl rfl)
      · split
        · exact .inl hgt
        · exact .inr (.inr hgt)

theorem rowBefore_irrefl (terms : List (Term C)) (a : C → Option V) : ¬rowBefore terms a a := by
  induction terms with
  | nil => exact id
  | cons term rest ih =>
    rintro (hcell | ⟨_, hrest⟩)
    · exact cellBefore_irrefl term _ hcell
    · exact ih hrest

theorem rowBefore_trans {terms : List (Term C)} {a b c : C → Option V} (hab : rowBefore terms a b) (hbc : rowBefore terms b c) :
    rowBefore terms a c := by
  induction terms with
  | nil => exact hab
  | cons term rest ih =>
    rcases hab with hab | ⟨heq, hab⟩
    · rcases hbc with hbc | ⟨heq', _⟩
      · exact .inl (cellBefore_trans hab hbc)
      · exact .inl (heq' ▸ hab)
    · rcases hbc with hbc | ⟨heq', hbc⟩
      · exact .inl (heq ▸ hbc)
      · exact .inr ⟨heq.trans heq', ih hab hbc⟩

/-- Rows the terms do not order agree in every ordered column. -/
theorem rowBefore_total (terms : List (Term C)) (a b : C → Option V) :
    rowBefore terms a b ∨ rowBefore terms b a ∨ ∀ term ∈ terms, a term.column = b term.column := by
  induction terms with
  | nil => exact .inr (.inr (by simp))
  | cons term rest ih =>
    rcases cellBefore_total term (a term.column) (b term.column) with hlt | heq | hgt
    · exact .inl (.inl hlt)
    · rcases ih with hlt | hgt | hall
      · exact .inl (.inr ⟨heq, hlt⟩)
      · exact .inr (.inl (.inr ⟨heq.symm, hgt⟩))
      · refine .inr (.inr ?_)
        intro other hother
        rcases List.mem_cons.mp hother with rfl | hother
        · exact heq
        · exact hall other hother
    · exact .inr (.inl (.inl hgt))

theorem rowBefore_asymm {terms : List (Term C)} {a b : C → Option V} (h : rowBefore terms a b) : ¬rowBefore terms b a :=
  fun hba => rowBefore_irrefl terms a (rowBefore_trans h hba)

theorem rowBefore_congr_left {terms : List (Term C)} {a b c : C → Option V} (h : ∀ term ∈ terms, a term.column = b term.column) :
    rowBefore terms a c ↔ rowBefore terms b c := by
  induction terms with
  | nil => exact Iff.rfl
  | cons term rest ih =>
    rw [rowBefore, rowBefore, h term List.mem_cons_self, ih fun other hother => h other (List.mem_cons_of_mem _ hother)]

/-- The first column that differs decides. -/
theorem rowBefore_iff (terms : List (Term C)) (a b : C → Option V) :
    rowBefore terms a b ↔
      ∃ i term, terms[i]? = some term ∧ (∀ other ∈ terms.take i, a other.column = b other.column) ∧
        cellBefore term (a term.column) (b term.column) := by
  induction terms with
  | nil => simp [rowBefore]
  | cons term rest ih =>
    rw [rowBefore, ih]
    constructor
    · rintro (hcell | ⟨heq, i, found, hfound, hprevious, hcell⟩)
      · exact ⟨0, term, rfl, by simp, hcell⟩
      · exact ⟨i + 1, found, hfound, List.forall_mem_cons.mpr ⟨heq, hprevious⟩, hcell⟩
    · rintro ⟨i, found, hfound, hprevious, hcell⟩
      cases i with
      | zero =>
        cases hfound
        exact .inl hcell
      | succ i =>
        rw [List.take_succ_cons, List.forall_mem_cons] at hprevious
        exact .inr ⟨hprevious.1, i, found, hfound, hprevious.2, hcell⟩

/-! ## Sorted rows -/

/-- The rows in the terms' order, rows the terms do not tell apart as they were. -/
def sortRows (terms : List (Term C)) (rows : List (C → Option V)) : List (C → Option V) :=
  rows.insertionSort fun a b => ¬rowBefore terms b a

theorem sortRows_perm (terms : List (Term C)) (rows : List (C → Option V)) : (sortRows terms rows).Perm rows :=
  List.perm_insertionSort _ rows

theorem not_rowBefore_trans {terms : List (Term C)} {a b c : C → Option V} (hab : ¬rowBefore terms b a)
    (hbc : ¬rowBefore terms c b) :
    ¬rowBefore terms c a := by
  intro hca
  rcases rowBefore_total terms b c with hlt | hgt | hall
  · exact hab (rowBefore_trans hlt hca)
  · exact hbc hgt
  · exact hab ((rowBefore_congr_left hall).mpr hca)

theorem sortRows_pairwise (terms : List (Term C)) (rows : List (C → Option V)) :
    (sortRows terms rows).Pairwise fun a b => ¬rowBefore terms b a :=
  haveI : Std.Total fun a b : C → Option V => ¬rowBefore terms b a :=
    ⟨fun a b => (em (rowBefore terms b a)).elim (fun h => .inr (rowBefore_asymm h)) .inl⟩
  haveI : IsTrans (C → Option V) fun a b => ¬rowBefore terms b a := ⟨fun _ _ _ => not_rowBefore_trans⟩
  List.pairwise_insertionSort _ rows

section
variable {terms : List (Term C)} {rows : List (C → Option V)} {key : C}

/-- Rows that an ordered column tells apart are in strict order. -/
theorem sortRows_strict (hterm : ∃ term ∈ terms, term.column = key) (hkey : (rows.map fun row => row key).Nodup) :
    (sortRows terms rows).Pairwise (rowBefore terms) := by
  obtain ⟨term, hterm, rfl⟩ := hterm
  have hdistinct : (sortRows terms rows).Pairwise fun a b => a term.column ≠ b term.column := by
    have hnodup := ((sortRows_perm terms rows).map fun row => row term.column).nodup_iff.mpr hkey
    rwa [List.Nodup, List.pairwise_map] at hnodup
  refine ((sortRows_pairwise terms rows).and hdistinct).imp ?_
  rintro a b ⟨hle, hne⟩
  rcases rowBefore_total terms a b with hlt | hgt | hall
  · exact hlt
  · exact absurd hgt hle
  · exact absurd (hall term hterm) hne

/-- What follows a member of a list in a strict order is what comes after it there. -/
theorem filter_after {before : α → α → Prop} [DecidableRel before] (hirrefl : ∀ a, ¬before a a)
    (hasymm : ∀ {a b}, before a b → ¬before b a) {front rest : List α} {c : α} (h : (front ++ c :: rest).Pairwise before) :
    (front ++ c :: rest).filter (fun a => before c a) = rest := by
  rw [List.pairwise_append, List.pairwise_cons] at h
  obtain ⟨_, ⟨hrest, _⟩, hfront⟩ := h
  have hnone : front.filter (fun a => decide (before c a)) = [] := by
    rw [List.filter_eq_nil_iff]
    intro a ha
    simpa using hasymm (hfront a ha c List.mem_cons_self)
  have hall : rest.filter (fun a => decide (before c a)) = rest := by
    rw [List.filter_eq_self]
    intro a ha
    simpa using hrest a ha
  rw [List.filter_append, hnone, List.filter_cons_of_neg (by simpa using hirrefl c), hall, List.nil_append]

/-- What follows a row in the sorted rows are the rows after it, sorted. -/
theorem sortRows_after (hterm : ∃ term ∈ terms, term.column = key) (hkey : (rows.map fun row => row key).Nodup)
    {front rest : List (C → Option V)} {c : C → Option V} (h : sortRows terms rows = front ++ c :: rest) :
    sortRows terms (rows.filter fun row => rowBefore terms c row) = rest := by
  have hstrict := sortRows_strict hterm hkey
  have hafter : (sortRows terms rows).filter (fun row => rowBefore terms c row) = rest := by
    rw [h] at hstrict ⊢
    exact filter_after (rowBefore_irrefl terms) rowBefore_asymm hstrict
  have hkey' : ((rows.filter fun row => rowBefore terms c row).map fun row => row key).Nodup :=
    hkey.sublist (List.filter_sublist.map _)
  rw [← hafter]
  refine List.Perm.eq_of_pairwise ?_ (sortRows_strict hterm hkey') (hstrict.sublist List.filter_sublist) ?_
  · intro a b _ _ hab hba
    exact absurd hba (rowBefore_asymm hab)
  · exact (sortRows_perm terms _).trans ((sortRows_perm terms rows).filter _).symm

end

end

/-! ## Pages -/

section
variable {α β κ ε : Type}

structure Page (β κ : Type) where
  items : List β
  next : Option κ

/-- The answers to the first `limit` of a list, and the cursor of the last of them where more
    follow. -/
def pageOf (answer : α → β) (cursor : α → κ) (limit : Nat) (rows : List α) : Page β κ :=
  ⟨(rows.take limit).map answer, if limit < rows.length then (rows.take limit).getLast?.map cursor else none⟩

/-- Page after page until one has no cursor; `none` where a read fails. -/
def walk (read : Option κ → Except ε (Page β κ)) : Nat → Option κ → Option (List (Page β κ))
  | 0, _ => none
  | fuel + 1, after =>
    match read after with
    | .error _ => none
    | .ok page =>
      match page.next with
      | none => some [page]
      | some next => (walk read fuel (some next)).map (page :: ·)

/-- The pages hold the items in order, each but the last exactly `limit` of them. -/
structure Complete (limit : Nat) (items : List β) (pages : List (Page β κ)) : Prop where
  items : pages.flatMap Page.items = items
  full : ∀ page ∈ pages.dropLast, page.items.length = limit
  within : ∀ page ∈ pages, page.items.length ≤ limit
  ne_nil : pages ≠ []

theorem Complete.cons {limit : Nat} {items : List β} {page : Page β κ} {pages : List (Page β κ)} (h : Complete limit items pages)
    (hpage : page.items.length = limit) : Complete limit (page.items ++ items) (page :: pages) := by
  refine ⟨?_, ?_, ?_, by simp⟩
  · rw [List.flatMap_cons, h.items]
  · rw [List.dropLast_cons_of_ne_nil h.ne_nil]
    exact List.forall_mem_cons.mpr ⟨hpage, h.full⟩
  · exact List.forall_mem_cons.mpr ⟨Nat.le_of_eq hpage, h.within⟩

theorem walk_complete {read : Option κ → Except ε (Page β κ)} {answer : α → β} {cursor : α → κ} {limit : Nat} (hlimit : 0 < limit)
    {all : List α}
    (hread : ∀ front c rest, all = front ++ c :: rest → read (some (cursor c)) = .ok (pageOf answer cursor limit rest))
    {rows : List α}
    (hsuffix : rows <:+ all) {after : Option κ} (hafter : read after = .ok (pageOf answer cursor limit rows)) {fuel : Nat}
    (hfuel : rows.length < fuel) : ∃ pages, walk read fuel after = some pages ∧ Complete limit (rows.map answer) pages := by
  induction fuel generalizing rows after with
  | zero => omega
  | succ fuel ih =>
    by_cases hmore : limit < rows.length
    · obtain ⟨c, hc⟩ : ∃ c, (rows.take limit).getLast? = some c := by
        cases hlast : (rows.take limit).getLast? with
        | some c => exact ⟨c, rfl⟩
        | none =>
          rw [List.getLast?_eq_none_iff, List.take_eq_nil_iff] at hlast
          rcases hlast with hzero | hnil
          · omega
          · rw [hnil, List.length_nil] at hmore
            omega
      -- The cursor's row ends the page, and the rest follows it in the whole list.
      obtain ⟨front, hfront⟩ := hsuffix
      obtain ⟨init, hinit⟩ := List.getLast?_eq_some_iff.mp hc
      have hrows : rows = init ++ c :: rows.drop limit := by
        have happend := List.take_append_drop limit rows
        rw [hinit, List.append_assoc] at happend
        exact happend.symm
      have hsplit : all = (front ++ init) ++ c :: rows.drop limit :=
        calc all = front ++ rows := hfront.symm
          _ = front ++ (init ++ c :: rows.drop limit) := congrArg (front ++ ·) hrows
          _ = (front ++ init) ++ c :: rows.drop limit := (List.append_assoc _ _ _).symm
      have hpages := ih ⟨front ++ rows.take limit, by rw [List.append_assoc, List.take_append_drop, hfront]⟩ (hread _ _ _ hsplit)
        (by rw [List.length_drop]; omega)
      obtain ⟨pages, hwalk, hcomplete⟩ := hpages
      refine ⟨⟨(rows.take limit).map answer, some (cursor c)⟩ :: pages, ?_, ?_⟩
      · simp only [walk, hafter, pageOf, hmore, if_true, hc, Option.map_some, hwalk]
      · have hcons := @Complete.cons β κ limit _ ⟨(rows.take limit).map answer, some (cursor c)⟩ _ hcomplete
          (by rw [List.length_map, List.length_take]; omega)
        rwa [← List.map_append, List.take_append_drop] at hcons
    · refine ⟨[⟨(rows.take limit).map answer, none⟩], ?_, ?_, ?_, ?_, by simp⟩
      · simp only [walk, hafter, pageOf, hmore, if_false]
      · rw [List.flatMap_singleton, List.take_of_length_le (by omega)]
      · simp
      · intro page hpage
        rw [List.mem_singleton.mp hpage, List.length_map]
        exact List.length_take_le limit rows

end

end Fabrika.Lib.Keyset
