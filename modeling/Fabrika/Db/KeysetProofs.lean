/-
  Fabrika.Db.KeysetProofs — a list read page by page is the whole list.

  `keysetAfter_true`: the condition of a cursor is true of exactly the rows strictly after the
  cursor's row, a null or not in any order column, up or down. Both dialects sort in the order it
  means (`sortTerm_orderItem`), so a page after a row's cursor is what follows the row in the
  sorted list (`listRows_cursor`), and the pages are the list (`list_complete`).
-/

import Mathlib.Data.String.Basic
import Fabrika.Db.Keyset

namespace Fabrika.Db.Keyset

open Fabrika.Lib Fabrika.Lib.Keyset Fabrika.Db.Nodes Fabrika.Db.Cursor
open Fabrika.Db.Policy (inSet nameSet)
open Fabrika.Db.SqlText (Bound Cells)
open Fabrika.Db.Scope (SqlDialect)

section
variable {V : Type} [LinearOrder V] (db : Database V)

/-! ## Conditions -/

theorem foldl_and_true (row : Cells V) (node : OperationNode) (rest : List OperationNode) :
    truth db row (rest.foldl .and node) = .true ↔ ∀ other ∈ node :: rest, truth db row other = .true := by
  induction rest generalizing node with
  | nil => simp
  | cons next rest ih =>
    rw [List.foldl_cons, ih]
    simp [truth_and, and_assoc]

theorem foldl_or_true (row : Cells V) (node : OperationNode) (rest : List OperationNode) :
    truth db row (rest.foldl .or node) = .true ↔ ∃ other ∈ node :: rest, truth db row other = .true := by
  induction rest generalizing node with
  | nil => simp
  | cons next rest ih =>
    rw [List.foldl_cons, ih]
    simp [truth_or, or_assoc]

variable {nodes : List OperationNode}

theorem allOf_true {node : OperationNode} (h : allOf nodes = some node) (row : Cells V) :
    truth db row node = .true ↔ ∀ other ∈ nodes, truth db row other = .true := by
  cases nodes with
  | nil => cases h
  | cons first rest =>
    cases h
    exact foldl_and_true db row first rest

theorem anyOf_true {node : OperationNode} (h : anyOf nodes = some node) (row : Cells V) :
    truth db row node = .true ↔ ∃ other ∈ nodes, truth db row other = .true := by
  match nodes, h with
  | [only], h =>
    cases h
    simp
  | first :: next :: rest, h =>
    cases h
    exact foldl_or_true db row first (next :: rest)

theorem anyOf_eq_none : anyOf nodes = none ↔ nodes = [] := by
  match nodes with
  | [] => simp [anyOf]
  | [only] => simp [anyOf]
  | first :: next :: rest => simp [anyOf]

section
variable (row : Cells V) (table name : String)

theorem isNull_true : truth db row (isNull table name false) = .true ↔ row name = none := by
  simp [isNull, column, truth, Truth.ofBool]

theorem isNotNull_true : truth db row (isNull table name true) = .true ↔ row name ≠ none := by
  simp [isNull, column, truth, Truth.ofBool, Option.isSome_iff_ne_none]

end

/-- A column reads the text it prints back as the value it printed. -/
def ReadsBack : Prop := ∀ name value, db.bind name (.text (db.text name value)) = value

variable {db}

section
variable (h : ReadsBack db) (row : Cells V) (table name : String) (value : V)
include h

theorem compare_eq_true : truth db row (compare table name "=" (codeUnits (db.text name value))) = .true ↔
    row name = some value := by
  simp only [compare, column, truth, compared, usvString_codeUnits, h name value, Option.getD_some]
  cases row name with
  | none => simp
  | some cell => simp [Truth.ofBool]

theorem compare_gt_true :
    truth db row (compare table name ">" (codeUnits (db.text name value))) = .true ↔ ∃ cell, row name = some cell ∧
    value < cell := by
  simp only [compare, column, truth, compared, usvString_codeUnits, h name value, Option.getD_some]
  cases row name with
  | none => simp
  | some cell => simp [Truth.ofBool]

theorem compare_lt_true :
    truth db row (compare table name "<" (codeUnits (db.text name value))) = .true ↔ ∃ cell, row name = some cell ∧
    cell < value := by
  simp only [compare, column, truth, compared, usvString_codeUnits, h name value, Option.getD_some]
  cases row name with
  | none => simp
  | some cell => simp [Truth.ofBool]

end

/-! ## The condition of a cursor -/

/-- The order a list's terms mean: nulls last ascending and first descending. -/
def meant (term : OrderColumn) : Term String := ⟨term.column, term.direction = .desc, term.direction = .desc⟩

/-- The first row comes before the second in a list's order. -/
def Before (order : List OrderColumn) : Cells V → Cells V → Prop := rowBefore (order.map meant)

instance (order : List OrderColumn) : DecidableRel (Before order : Cells V → Cells V → Prop) :=
  fun a b => inferInstanceAs (Decidable (rowBefore _ a b))

def printed (db : Database V) (name : String) (cell : Option V) : CursorValue :=
  cell.map fun value => codeUnits (db.text name value)

theorem equalTo_true (h : ReadsBack db) (row : Cells V) (table name : String) (cell : Option V) :
    truth db row (equalTo table name (printed db name cell)) = .true ↔ cell = row name := by
  cases cell with
  | none => exact (isNull_true db row table name).trans eq_comm
  | some value => exact (compare_eq_true h row table name value).trans eq_comm

/-- A column's part of the condition is true of the cells after the cursor's; where there is
    none, no cell is. -/
theorem after_true (h : ReadsBack db) (row : Cells V) (table : String) (term : OrderColumn) (cell : Option V) :
    (∃ node, after table term (printed db term.column cell) = some node ∧ truth db row node = .true) ↔
      cellBefore (meant term) cell (row term.column) := by
  obtain ⟨name, direction⟩ := term
  cases direction with
  | asc =>
    cases cell with
    | none =>
      -- Ascending, nulls are last: nothing follows one.
      cases hcell : row name <;> simp [after, printed, cellBefore, meant]
    | some value =>
      have hnode : after table ⟨name, .asc⟩ (printed db name (some value)) =
          some (.parens (.or (compare table name ">" (codeUnits (db.text name value))) (isNull table name false))) := rfl
      simp only [hnode, Option.some.injEq, exists_eq_left', truth, Truth.or_eq_true, compare_gt_true h, isNull_true]
      cases hcell : row name <;> simp [cellBefore, meant]
  | desc =>
    cases cell with
    | none =>
      have hnode : after table ⟨name, .desc⟩ (printed db name none) = some (isNull table name true) := rfl
      simp only [hnode, Option.some.injEq, exists_eq_left', isNotNull_true]
      cases hcell : row name <;> simp [cellBefore, meant]
    | some value =>
      have hnode : after table ⟨name, .desc⟩ (printed db name (some value)) =
          some (compare table name "<" (codeUnits (db.text name value))) := rfl
      simp only [hnode, Option.some.injEq, exists_eq_left', compare_lt_true h]
      cases hcell : row name <;> simp [cellBefore, meant]

theorem conjoined_true (row : Cells V) (nodes : List OperationNode) (position : OperationNode) :
    (∃ node, (if nodes.length = 0 then some position else allOf (nodes ++ [position])) = some node ∧ truth db row node = .true) ↔
      (∀ node ∈ nodes, truth db row node = .true) ∧ truth db row position = .true := by
  cases nodes with
  | nil => simp
  | cons first rest =>
    have hall : allOf (first :: rest ++ [position]) = some ((rest ++ [position]).foldl .and first) := rfl
    rw [if_neg (by simp), hall]
    simp only [Option.some.injEq, exists_eq_left', allOf_true db hall row, List.forall_mem_append, List.forall_mem_singleton]

section
variable {table : String} {order : List OrderColumn} {index : Nat} {term : OrderColumn} {cursor : Cells V}

omit [LinearOrder V] in
theorem cursorValues_getElem (hterm : order[index]? = some term) :
    ((cursorValues db order cursor)[index]?).join = printed db term.column (cursor term.column) := by
  rw [cursorValues, List.getElem?_map, hterm]
  rfl

omit [LinearOrder V] in
/-- The conditions of the columns before one, each at its cursor. -/
theorem equalNodes_eq (table : String) (cursor : Cells V) (hindex : index < order.length) :
    ((List.range index).map fun previous => equalTo table ((order[previous]?).elim "" OrderColumn.column)
        ((cursorValues db order cursor)[previous]?).join) =
      (order.take index).map fun other => equalTo table other.column (printed db other.column (cursor other.column)) := by
  apply List.ext_getElem
  · simp [Nat.le_of_lt hindex]
  · intro i hi _
    rw [List.length_map, List.length_range] at hi
    have hterm : order[i]? = some order[i] := List.getElem?_eq_getElem (by omega)
    rw [List.getElem_map, List.getElem_range, cursorValues_getElem hterm, hterm]
    simp

/-- A branch is true where the columns before its own are at the cursor and its own is after it. -/
theorem branch_true (h : ReadsBack db) (row : Cells V) (hterm : order[index]? = some term) :
    (∃ node, branch table order (cursorValues db order cursor) index = some node ∧ truth db row node = .true) ↔
      (∀ other ∈ order.take index, cursor other.column = row other.column) ∧
        cellBefore (meant term) (cursor term.column) (row term.column) := by
  have hequal := @equalNodes_eq V db order index table cursor (List.getElem?_eq_some_iff.mp hterm).1
  rw [← after_true h row table term (cursor term.column), branch, hterm, Option.bind_eq_bind, Option.bind_some,
    cursorValues_getElem hterm]
  dsimp only
  rw [hequal]
  cases hposition : after table term (printed db term.column (cursor term.column)) with
  | none => simp
  | some position =>
    rw [Option.bind_eq_bind, Option.bind_some, conjoined_true, List.forall_mem_map]
    simp only [Option.some.injEq, exists_eq_left', equalTo_true h]

/-- The condition of a row's cursor is true of exactly the rows after it. -/
theorem keysetAfter_true (h : ReadsBack db) (table : String) (order : List OrderColumn) (cursor row : Cells V) :
    truth db row (keysetAfter table order (cursorValues db order cursor)) = .true ↔ Before order cursor row := by
  have hbranches : truth db row (keysetAfter table order (cursorValues db order cursor)) = .true ↔
      ∃ node ∈ (List.range order.length).filterMap (branch table order (cursorValues db order cursor)),
        truth db row node = .true := by
    rw [keysetAfter]
    cases hany : anyOf ((List.range order.length).filterMap (branch table order (cursorValues db order cursor))) with
    | some node => exact anyOf_true db hany row
    | none => simp [(anyOf_eq_none).mp hany, truth, Truth.ofBool]
  rw [hbranches, Before, rowBefore_iff]
  constructor
  · rintro ⟨node, hnode, htrue⟩
    obtain ⟨index, hindex, hbranch⟩ := List.mem_filterMap.mp hnode
    have hterm : order[index]? = some _ := List.getElem?_eq_getElem (List.mem_range.mp hindex)
    obtain ⟨hprevious, hcell⟩ := (branch_true h row hterm).mp ⟨node, hbranch, htrue⟩
    refine ⟨index, _, by rw [List.getElem?_map, hterm]; rfl, ?_, hcell⟩
    rwa [← List.map_take, List.forall_mem_map]
  · rintro ⟨index, meantTerm, hmeant, hprevious, hcell⟩
    rw [List.getElem?_map] at hmeant
    obtain ⟨term, hterm, rfl⟩ := Option.map_eq_some_iff.mp hmeant
    rw [← List.map_take, List.forall_mem_map] at hprevious
    obtain ⟨node, hbranch, htrue⟩ := (branch_true h row hterm).mpr ⟨hprevious, hcell⟩
    exact ⟨node, List.mem_filterMap.mpr ⟨index, List.mem_range.mpr (List.getElem?_eq_some_iff.mp hterm).1, hbranch⟩, htrue⟩

end

/-! ## Statements -/

/-- Both dialects sort by the order a list's terms mean. -/
theorem sortTerm_orderItem (dialect : SqlDialect) (term : OrderColumn) :
    sortTerm dialect (orderItem term dialect) = meant term := by
  obtain ⟨name, direction⟩ := term
  cases dialect <;> cases direction <;> rfl

theorem sortTerms_eq (dialect : SqlDialect) (order : List OrderColumn) :
    (order.map (orderItem · dialect)).map (sortTerm dialect) = order.map meant := by
  rw [List.map_map]
  exact List.map_congr_left fun term _ => sortTerm_orderItem dialect term

/-- A row the capability's scope reaches and the caller's conditions hold of. -/
def Matches (db : Database V) (table : String) (scope : Option OperationNode) (conditions : List Condition)
    (row : Cells V) : Prop :=
  (∃ node, scope = some node ∧ truth db row node = .true) ∧ ∀ condition ∈ conditions,
    truth db row (conditionNode table condition) = .true

instance (table : String) (scope : Option OperationNode) (conditions : List Condition) :
    DecidablePred (Matches db table scope conditions) := fun row =>
  match scope with
  | none => isFalse fun h => by obtain ⟨⟨_, hnone, _⟩, _⟩ := h; cases hnone
  | some node =>
    decidable_of_iff (truth db row node = .true ∧ ∀ condition ∈ conditions, truth db row (conditionNode table condition) = .true)
      (by simp [Matches])

theorem conditionsNode_true (table : String) (conditions : List Condition) (row : Cells V) :
    (∀ node, conditionsNode table conditions = some node → truth db row node = .true) ↔
      ∀ condition ∈ conditions, truth db row (conditionNode table condition) = .true := by
  rw [conditionsNode]
  cases hall : allOf (conditions.map (conditionNode table)) with
  | none =>
    cases conditions with
    | nil => simp
    | cons condition rest => cases hall
  | some node =>
    simp only [Option.some.injEq, forall_eq', allOf_true db hall row, List.forall_mem_map]

theorem scopedWhere_true (conditions position : Option OperationNode) (scope : OperationNode) (row : Cells V) :
    truth db row (scopedWhere (withPosition conditions position) scope) = .true ↔
      truth db row scope = .true ∧ (∀ node, conditions = some node → truth db row node = .true) ∧
        ∀ node, position = some node → truth db row node = .true := by
  cases position with
  | none => cases conditions <;> simp [withPosition, scopedWhere, truth, and_comm]
  | some position => cases conditions <;> simp [withPosition, scopedWhere, truth, and_comm]

/-! ## The order of a list -/

theorem withTiebreak_key {shape : TableShape} {terms order : List OrderColumn} {key : String}
    (h : withTiebreak shape (nameSet (terms.map OrderColumn.column)) terms [key] = .ok order) :
    ∃ term ∈ order, term.column = key := by
  have hname : ∃ name, columnOf shape key = .ok name ∧ name = key := by
    rw [withTiebreak] at h
    rw [columnOf] at h ⊢
    split at h
    · exact ⟨key, if_pos ‹_›, rfl⟩
    · cases h
  obtain ⟨name, hcolumn, rfl⟩ := hname
  simp only [withTiebreak, hcolumn, bind, Except.bind] at h
  by_cases hnamed : inSet (nameSet (terms.map OrderColumn.column)) name = true
  · have horder : terms = order := by
      rw [if_pos hnamed] at h
      exact Except.ok.inj h
    subst horder
    rw [inSet, nameSet, List.contains_eq_mem, decide_eq_true_eq, List.mem_eraseDups, List.mem_map] at hnamed
    exact hnamed
  · have horder : terms ++ [⟨name, .asc⟩] = order := by
      rw [if_neg hnamed] at h
      exact Except.ok.inj h
    subst horder
    exact ⟨⟨name, .asc⟩, by simp, rfl⟩

/-- A keyed table's list orders by its key. -/
theorem orderOf_key {shape : TableShape} {orderBy : Option (List (List String))} {key : String} {order : List OrderColumn}
    (h : orderOf shape orderBy [key] = .ok order) : ∃ term ∈ order.map meant, term.column = key := by
  rw [orderOf] at h
  cases hterms : (orderBy.getD []).mapM (parseTerm shape) with
  | error refusal => rw [hterms] at h; cases h
  | ok terms =>
    rw [hterms] at h
    obtain ⟨term, hterm, hkey⟩ := withTiebreak_key h
    exact ⟨meant term, List.mem_map_of_mem hterm, hkey⟩

theorem limitOf_pos {limit : Option Int} {n : Nat} (h : limitOf limit = .ok n) : 0 < n := by
  cases limit with
  | none =>
    cases h
    decide
  | some limit =>
    rw [limitOf] at h
    split at h
    · cases h
      omega
    · cases h

/-! ## Pages -/

omit [LinearOrder V] in
theorem page_eq (answer : Cells V → β) (cursor : Cells V → κ) (limit : Nat) (rows : List (Cells V)) :
    (⟨((rows.take (limit + 1)).take limit).map answer,
      if limit < (rows.take (limit + 1)).length then ((rows.take (limit + 1)).take limit).getLast?.map cursor
      else none⟩ : Page β κ) =
      pageOf answer cursor limit rows := by
  have htake : (rows.take (limit + 1)).take limit = rows.take limit := by
    rw [List.take_take, Nat.min_eq_left (by omega)]
  have hmore : limit < (rows.take (limit + 1)).length ↔ limit < rows.length := by
    rw [List.length_take]
    omega
  simp only [pageOf, htake, hmore]

section
variable {dialect : SqlDialect} {rows : List (Cells V)} {shape : TableShape} {scope : Option OperationNode} {key : String}
  {options : ListOptions} {order : List OrderColumn} {limit : Nat}

/-- The rows a list is of, in its order. -/
def sortedMatches (db : Database V) (rows : List (Cells V)) (shape : TableShape) (scope : Option OperationNode)
    (conditions : List Condition)
    (order : List OrderColumn) : List (Cells V) :=
  sortRows (order.map meant) (rows.filter fun row => Matches db shape.table scope conditions row)

/-- A page is of the matching rows its position holds of. -/
theorem listRows_eq (horder : orderOf shape options.orderBy [key] = .ok order) (hlimit : limitOf options.limit = .ok limit)
    {position : Option OperationNode} (hposition : positionOf shape order options.after = .ok position) (p : Cells V → Prop)
    [DecidablePred p] (hp : ∀ row, p row ↔ ∀ node, position = some node → truth db row node = .true) :
    listRows db dialect rows shape scope [key] options =
      .ok (pageOf (answer shape.visible) (fun row => encodeCursor (cursorValues db order row)) limit
        (sortRows (order.map meant) ((rows.filter fun row =>
          Matches db shape.table scope options.conditions row).filter p))) := by
  have hlist : listRows db dialect rows shape scope [key] options =
      match scope with
      | none => .ok ⟨[], none⟩
      | some scope =>
        let found := db.run dialect rows (selectNode shape.table options.conditions order (limit + 1) scope position dialect)
        .ok ⟨(found.take limit).map (answer shape.visible),
          if limit < found.length then (found.take limit).getLast?.map fun last =>
          encodeCursor (cursorValues db order last) else none⟩ := by
    simp only [listRows, horder, hlimit, hposition, bind, Except.bind]
    cases scope <;> rfl
  rw [hlist]
  cases scope with
  | none =>
    have hnone : (rows.filter fun row => Matches db shape.table none options.conditions row) = [] := by
      rw [List.filter_eq_nil_iff]
      intro row _ hmatches
      obtain ⟨⟨_, hscope, _⟩, _⟩ := of_decide_eq_true hmatches
      cases hscope
    rw [hnone]
    simp [pageOf, sortRows]
  | some scope =>
    have hfilter : (rows.filter fun row =>
        truth db row (selectNode shape.table options.conditions order (limit + 1) scope position dialect).filter =
        .true) = (rows.filter fun row => Matches db shape.table (some scope) options.conditions row).filter p := by
      rw [List.filter_filter]
      refine List.filter_congr fun row _ => ?_
      rw [← Bool.decide_and, decide_eq_decide, hp row]
      show truth db row (scopedWhere (withPosition (conditionsNode shape.table options.conditions) position) scope) = .true ↔ _
      rw [scopedWhere_true, conditionsNode_true]
      simp only [Matches, Option.some.injEq, exists_eq_left']
      tauto
    have hrun : db.run dialect rows (selectNode shape.table options.conditions order (limit + 1) scope position dialect) =
        (sortRows (order.map meant) ((rows.filter fun row =>
          Matches db shape.table (some scope) options.conditions row).filter p)).take
          (limit + 1) := by
      rw [Database.run, hfilter]
      show (sortRows ((order.map (orderItem · dialect)).map (sortTerm dialect)) _).take (limit + 1) = _
      rw [sortTerms_eq]
    dsimp only
    rw [hrun, page_eq]

theorem listRows_first (horder : orderOf shape options.orderBy [key] = .ok order) (hlimit : limitOf options.limit = .ok limit)
    (hafter : options.after = none) :
    listRows db dialect rows shape scope [key] options =
      .ok (pageOf (answer shape.visible) (fun row => encodeCursor (cursorValues db order row)) limit
        (sortedMatches db rows shape scope options.conditions order)) := by
  have hlist := @listRows_eq V _ db dialect rows shape scope key options order limit horder hlimit none (by rw [hafter]; rfl)
    (fun _ => True) _ (by simp)
  simp only [decide_true, List.filter_true] at hlist
  exact hlist

omit [LinearOrder V] in
theorem printed_cursorValues (row : Cells V) : ∀ value ∈ cursorValues db order row, Printed value := by
  intro value hvalue text htext u hu
  obtain ⟨term, _, rfl⟩ := List.mem_map.mp hvalue
  obtain ⟨cell, _, rfl⟩ := Option.map_eq_some_iff.mp htext
  exact codeUnits_lt _ u hu

/-- The page after a row's cursor is of the rows that follow it. -/
theorem listRows_cursor (h : ReadsBack db) (hkey : (rows.map fun row => row key).Nodup)
    (horder : orderOf shape options.orderBy [key] = .ok order) (hlimit : limitOf options.limit = .ok limit)
    {front rest : List (Cells V)} {cursor : Cells V}
    (hsplit : sortedMatches db rows shape scope options.conditions order = front ++ cursor :: rest)
    (hafter : options.after = some (encodeCursor (cursorValues db order cursor))) :
    listRows db dialect rows shape scope [key] options =
      .ok (pageOf (answer shape.visible) (fun row => encodeCursor (cursorValues db order row)) limit rest) := by
  have hposition : positionOf shape order options.after = .ok
      (some (keysetAfter shape.table order (cursorValues db order cursor))) := by
    have hdecode := decodeCursor_encodeCursor (@printed_cursorValues V db order cursor)
    rw [cursorValues, List.length_map, ← cursorValues] at hdecode
    rw [hafter, positionOf, hdecode]
    rfl
  rw [listRows_eq horder hlimit hposition (Before order cursor) (by simp [keysetAfter_true h])]
  have hmatching : ((rows.filter fun row => Matches db shape.table scope options.conditions row).map fun row => row key).Nodup :=
    hkey.sublist (List.filter_sublist.map _)
  have hrest := sortRows_after (orderOf_key horder) hmatching hsplit
  rw [← hrest]
  rfl

/-- Reading a keyed table's list page by page: the condition of a cursor is true of exactly the
    rows strictly after the cursor's, and the pages hold every matching row once, in the order of
    the terms, each but the last exactly `limit` of them. -/
theorem list_complete (h : ReadsBack db) (hkey : (rows.map fun row => row key).Nodup)
    (horder : orderOf shape options.orderBy [key] = .ok order) (hlimit : limitOf options.limit = .ok limit) :
    (∀ cursor row, truth db row (keysetAfter shape.table order (cursorValues db order cursor)) = .true ↔
      Before order cursor row) ∧
      ∃ pages, walk (fun after => listRows db dialect rows shape scope [key] { options with after }) (rows.length + 1) none =
      some pages ∧
        ∃ listed : List (Cells V), listed.Perm (rows.filter fun row => Matches db shape.table scope options.conditions row) ∧
          listed.Pairwise (Before order) ∧ Complete limit (listed.map (answer shape.visible)) pages := by
  refine ⟨fun cursor row => keysetAfter_true h shape.table order cursor row, ?_⟩
  have hperm := sortRows_perm (order.map meant) (rows.filter fun row => Matches db shape.table scope options.conditions row)
  have hfuel : (sortedMatches db rows shape scope options.conditions order).length < rows.length + 1 := by
    rw [sortedMatches, hperm.length_eq]
    exact Nat.lt_succ_of_le (List.length_filter_le _ _)
  have hread : ∀ front cursor rest, sortedMatches db rows shape scope options.conditions order = front ++ cursor :: rest →
      listRows db dialect rows shape scope [key] { options with after := some (encodeCursor (cursorValues db order cursor)) } =
        .ok (pageOf (answer shape.visible) (fun row => encodeCursor (cursorValues db order row)) limit rest) := by
    intro front cursor rest hsplit
    exact @listRows_cursor V _ db dialect rows shape scope key
      { options with after := some (encodeCursor (cursorValues db order cursor)) }
      order limit h hkey horder hlimit front rest cursor hsplit rfl
  have hfirst := @listRows_first V _ db dialect rows shape scope key { options with after := none } order limit horder hlimit rfl
  obtain ⟨pages, hwalk, hcomplete⟩ := @walk_complete (Cells V) _ _ _
    (fun after => listRows db dialect rows shape scope [key] { options with after }) _ _ limit (limitOf_pos hlimit) _ hread _
    List.suffix_rfl none hfirst _ hfuel
  refine ⟨pages, hwalk, _, hperm, ?_, hcomplete⟩
  exact sortRows_strict (orderOf_key horder) (hkey.sublist (List.filter_sublist.map _))

end

end

/-- A database of text columns. -/
def textDatabase : Database String where
  text := fun _ value => value
  bind := fun _ value => match value with | .text value => value | _ => ""
  test := fun _ _ => .unknown

def task (id : String) (title : Option String) : Cells String := fun name =>
  if name = "id" then some id else if name = "title" then title else none

/-- Three tasks, two without a title, titles down, two to a page. -/
theorem tasks_complete :
    ∃ pages, walk (fun after =>
      listRows textDatabase .sqlite [task "b" none, task "a" (some "x"), task "c" none] ⟨"task", ["id", "title"], []⟩
        (some everything) ["id"] ⟨[], some [["title", "desc"]], some 2, after⟩) 4 none = some pages ∧
      ∃ listed : List (Cells String), listed.Perm ([task "b" none, task "a" (some "x"), task "c" none].filter fun row =>
          Matches textDatabase "task" (some everything) [] row) ∧
        listed.Pairwise (Before [⟨"title", .desc⟩, ⟨"id", .asc⟩]) ∧ Complete 2 (listed.map (answer ["id", "title"])) pages :=
  (@list_complete String _ textDatabase .sqlite [task "b" none, task "a" (some "x"), task "c" none] ⟨"task", ["id", "title"], []⟩
    (some everything) "id" ⟨[], some [["title", "desc"]], some 2, none⟩ [⟨"title", .desc⟩, ⟨"id", .asc⟩] 2
    (fun _ _ => rfl) (by decide) rfl rfl).2

end Fabrika.Db.Keyset
