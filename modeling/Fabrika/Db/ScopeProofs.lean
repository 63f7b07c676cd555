/-
  Fabrika.Db.ScopeProofs — the two spellings of a scope agree (see `Fabrika.Db.Scope`).

  Both are read as the same list of column tests: the handles' node prints them with `in (…)`,
  the fragment splices them with one parameter each. `scope_agrees` is the agreement, refusals
  included, for every table of an accepted policy set.
-/

import Fabrika.Db.Containment
import Fabrika.Db.Scope

namespace Fabrika.Db.Scope

open Fabrika.Lib Fabrika.Db.Policy Fabrika.Db.Links Fabrika.Db.SqlText
open Fabrika.Db.Nodes (OperationNode everything allOf anyOf inList printAll)

variable {V : Type} {equal : V → Bound → Bool}

/-! ## What a test says -/

def TestValue.truth (equal : V → Bound → Bool) (cell : Option V) : TestValue → Truth
  | .one value => equals equal cell (.text value)
  | .list values => isIn equal cell (values.map .text)

def ScopeTest.truth (equal : V → Bound → Bool) (row : Cells V) (test : ScopeTest) : Truth :=
  test.value.truth equal (row test.column)

def ScopeTerms.Holds (equal : V → Bound → Bool) (row : Cells V) : ScopeTerms → Prop
  | .all => True
  | .groups gs => ∃ group ∈ gs, ∀ test ∈ group, test.truth equal row = .true

@[simp] theorem under_self (name : String) (row : Cells V) : under name row name = some row := by simp [under]

/-! ## The fragment's text -/

def listText : SqlDialect → List String → Text
  | .postgres, values => [.word (.operator "="), .word .any, .group [.word (.param (.list values))]]
  | .sqlite, values =>
    [.word (.operator "in"),
      .group [.word .select, .word .value, .word .from, .word .jsonEach, .group [.word (.param (.list values))]]]

def valueText (dialect : SqlDialect) : TestValue → Text
  | .one value => [.word (.operator "="), .word (.param (.text value))]
  | .list values => listText dialect values

def testText (name : String) (dialect : SqlDialect) (test : ScopeTest) : Text :=
  [.word (.name name), .word .dot, .word (.name test.column)] ++ valueText dialect test.value

def groupText (name : String) (dialect : SqlDialect) (group : List ScopeTest) : Text :=
  [.group (joined .and (group.map (testText name dialect)))]

def termsText (name : String) (dialect : SqlDialect) : ScopeTerms → Text
  | .all => [.group [.word (.literal (some true))]]
  | .groups [] => [.group [.word (.literal (some false))]]
  | .groups groups => [.group (joined .or (groups.map (groupText name dialect)))]

/-- What a fragment spells so far. -/
def Fragment.written (fragment : Fragment) : List (Tok Lex) := splice fragment.parts fragment.values ++ fragment.text

/-- One value stands after each part. -/
def Fragment.Even (fragment : Fragment) : Prop := fragment.parts.length = fragment.values.length

variable {fragment : Fragment} {values : List String} {grant : WithinGrant} {model T : TableModel}
variable {tests : List ColumnTest}

section
variable {parts : List (List (Tok Lex))} {values : List Bound} (h : parts.length = values.length)
variable (part : List (Tok Lex))
include h

theorem splice_snoc (value : Bound) :
    splice (parts ++ [part]) (values ++ [value]) = splice parts values ++ part ++ [.word (.param value)] := by
  induction parts generalizing values with
  | nil =>
    cases values with
    | nil => simp [splice]
    | cons _ _ => cases h
  | cons first parts ih =>
    cases values with
    | nil => cases h
    | cons v values =>
      simp only [List.cons_append, splice, ih (Nat.succ.inj h)]
      simp

theorem splice_last : splice (parts ++ [part]) values = splice parts values ++ part := by
  induction parts generalizing values with
  | nil =>
    cases values with
    | nil => simp [splice]
    | cons _ _ => cases h
  | cons first parts ih =>
    cases values with
    | nil => cases h
    | cons v values =>
      simp only [List.cons_append, splice, ih (Nat.succ.inj h)]
      simp

end

section
variable (name : String) (dialect : SqlDialect) (h : fragment.Even)
include h

theorem addTest_written (first : Bool) (test : ScopeTest) :
    (fragment.addTest name dialect first test).Even ∧
      (fragment.addTest name dialect first test).written =
        fragment.written ++ (if first then [] else [.word .and]) ++ writeAll (testText name dialect test) := by
  obtain ⟨column, value⟩ := test
  have hlen : fragment.parts.length = fragment.values.length := h
  cases value with
  | one value =>
    refine ⟨by simp [Fragment.Even, Fragment.addTest, hlen], ?_⟩
    simp [Fragment.addTest, Fragment.written, splice_snoc hlen, testText, valueText, writeAll, Item.write]
  | list values =>
    refine ⟨by simp [Fragment.Even, Fragment.addTest, hlen], ?_⟩
    cases dialect with
    | postgres =>
      simp [Fragment.addTest, Fragment.written, splice_snoc hlen, testText, valueText, listText, listTest, writeAll, Item.write]
    | sqlite =>
      simp [Fragment.addTest, Fragment.written, splice_snoc hlen, testText, valueText, listText, listTest, writeAll, Item.write]

theorem addTests_written (tests : List ScopeTest) :
    (fragment.addTests name dialect false tests).Even ∧
      (fragment.addTests name dialect false tests).written =
        fragment.written ++ writeAll (tests.flatMap fun test => .word .and :: testText name dialect test) := by
  induction tests generalizing fragment with
  | nil => exact ⟨h, by simp [Fragment.addTests, writeAll]⟩
  | cons test rest ih =>
    obtain ⟨heven, hwritten⟩ := addTest_written name dialect h false test
    obtain ⟨heven', hwritten'⟩ := ih heven
    refine ⟨heven', ?_⟩
    rw [Fragment.addTests, hwritten', hwritten]
    simp [writeAll_append, writeAll, Item.write]

theorem addGroup_written (group : List ScopeTest) :
    (fragment.addTests name dialect true group).Even ∧
      (fragment.addTests name dialect true group).written =
        fragment.written ++ writeAll (joined .and (group.map (testText name dialect))) := by
  cases group with
  | nil => exact ⟨h, by simp [Fragment.addTests, joined, writeAll]⟩
  | cons test rest =>
    obtain ⟨heven, hwritten⟩ := addTest_written name dialect h true test
    obtain ⟨heven', hwritten'⟩ := addTests_written name dialect heven rest
    refine ⟨heven', ?_⟩
    rw [Fragment.addTests, hwritten', hwritten, List.map_cons, joined_cons]
    simp [writeAll_append, List.flatMap_map]

theorem addGroups_written (first : Bool) (groups : List (List ScopeTest)) :
    (fragment.addGroups name dialect first groups).Even ∧
      (fragment.addGroups name dialect first groups).written =
        fragment.written ++ writeAll (if first then joined .or (groups.map (groupText name dialect))
          else groups.flatMap fun group => .word .or :: groupText name dialect group) := by
  induction groups generalizing fragment first with
  | nil => cases first <;> exact ⟨h, by simp [Fragment.addGroups, joined, writeAll]⟩
  | cons group rest ih =>
    have hopen : ({ fragment with text := fragment.text ++ (if first then [] else [.word .or]) ++ [.opening] } : Fragment).Even :=
      h
    obtain ⟨heven, hwritten⟩ := addGroup_written name dialect hopen group
    have hclose : ∀ f : Fragment, f.Even → ({ f with text := f.text ++ [.closing] } : Fragment).Even := fun _ he => he
    obtain ⟨heven', hwritten'⟩ := ih (hclose _ heven) false
    refine ⟨heven', ?_⟩
    have hstep : ∀ f : Fragment, ({ f with text := f.text ++ [.closing] } : Fragment).written = f.written ++ [.closing] := by
      intro f
      simp [Fragment.written]
    rw [Fragment.addGroups, hwritten', hstep, hwritten]
    cases first with
    | true =>
      rw [List.map_cons, joined_cons]
      simp [Fragment.written, groupText, writeAll, Item.write, List.flatMap_map]
    | false => simp [Fragment.written, groupText, writeAll, Item.write]

end

/-- What the fragment splices is the text of its terms. -/
theorem scopeFragment_text (terms : ScopeTerms) (name : String) (dialect : SqlDialect) :
    readText (splice (scopeFragment terms name dialect).1 (scopeFragment terms name dialect).2) =
    some (termsText name dialect terms) := by
  have hread : ∀ written, written = writeAll (termsText name dialect terms) →
      readText written = some (termsText name dialect terms) := by
    intro written h
    rw [h, readText_writeAll]
  apply hread
  cases terms with
  | all => rfl
  | groups groups =>
    cases groups with
    | nil => rfl
    | cons group rest =>
      have hstart : (⟨[], [], [.opening]⟩ : Fragment).Even := rfl
      obtain ⟨heven, hwritten⟩ := addGroups_written name dialect hstart true (group :: rest)
      simp only [scopeFragment, splice_last heven]
      rw [← List.append_assoc, ← Fragment.written, hwritten]
      simp [Fragment.written, splice, termsText, writeAll, Item.write]

/-! ## What the fragment says -/

section

variable (equal) (name : String) (row : Cells V)

/-- The fragment is true of the row its alias names. -/
def FragmentTrue (terms : ScopeTerms) (dialect : SqlDialect) : Prop :=
  ∃ text, readText (splice (scopeFragment terms name dialect).1 (scopeFragment terms name dialect).2) = some text ∧
    (reading equal (under name row)).value text = some .true

/-- The handles' node is true of the row of its table; no node is an empty `Within`. -/
def NodeTrue : Option OperationNode → Prop
  | none => False
  | some node => (reading equal (under name row)).value node.print = some .true

end

variable {name : String} {row : Cells V}

theorem literal_value (b : Bool) :
    (reading equal (under name row)).value [.word (.literal (some b))] = some (Truth.ofBool b) := by
  rw [Reading.value_run]
  · simp [Reading.runValue, reading, test_literal]
  · intro w hw
    rw [List.mem_singleton] at hw
    cases hw
    exact ⟨rfl, rfl⟩

theorem testText_plain (dialect : SqlDialect) (test : ScopeTest) :
    (reading equal (under name row)).Plain (testText name dialect test) := by
  obtain ⟨column, value⟩ := test
  intro w hw
  cases value with
  | one value =>
    simp only [testText, valueText, List.cons_append, List.nil_append, List.mem_cons, Item.word.injEq, List.not_mem_nil,
      or_false] at hw
    rcases hw with rfl | rfl | rfl | rfl | rfl <;> exact ⟨rfl, rfl⟩
  | list values =>
    cases dialect with
    | postgres =>
      simp only [testText, valueText, listText, List.cons_append, List.nil_append, List.mem_cons, Item.word.injEq,
        List.not_mem_nil, or_false, reduceCtorEq] at hw
      rcases hw with rfl | rfl | rfl | rfl | rfl <;> exact ⟨rfl, rfl⟩
    | sqlite =>
      simp only [testText, valueText, listText, List.cons_append, List.nil_append, List.mem_cons, Item.word.injEq,
        List.not_mem_nil, or_false, reduceCtorEq] at hw
      rcases hw with rfl | rfl | rfl | rfl <;> exact ⟨rfl, rfl⟩

theorem testText_value (dialect : SqlDialect) (test : ScopeTest) :
    (reading equal (under name row)).runValue (testText name dialect test) = some (test.truth equal row) := by
  obtain ⟨column, value⟩ := test
  cases value with
  | one value => simp [testText, valueText, Reading.runValue, reading, test_equals, ScopeTest.truth, TestValue.truth]
  | list values =>
    cases dialect <;>
      simp [testText, valueText, listText, Reading.runValue, reading, test_each, test_any, ScopeTest.truth, TestValue.truth]

theorem groupText_plain (dialect : SqlDialect) (group : List ScopeTest) :
    (reading equal (under name row)).Plain (groupText name dialect group) := by
  intro w hw
  simp [groupText] at hw

theorem groupText_value (dialect : SqlDialect) {group : List ScopeTest} (hne : group ≠ []) :
    (reading equal (under name row)).runValue (groupText name dialect group) =
      some (Truth.all (group.map (ScopeTest.truth equal row))) := by
  rw [groupText, Reading.runValue]
  refine Reading.value_and rfl _ ?_ ?_ (by simpa using hne)
  · intro run hrun
    obtain ⟨test, _, rfl⟩ := List.mem_map.mp hrun
    exact testText_plain dialect test
  · simp [testText_value]

/-- The fragment is true exactly where its terms hold, each group having a test. -/
theorem fragmentTrue_iff (terms : ScopeTerms) (dialect : SqlDialect)
    (hne : ∀ gs, terms = .groups gs → ∀ group ∈ gs, group ≠ []) :
    FragmentTrue equal name row terms dialect ↔ terms.Holds equal row := by
  rw [FragmentTrue, scopeFragment_text]
  simp only [Option.some.injEq, exists_eq_left']
  cases terms with
  | all => simp [termsText, ScopeTerms.Holds, Reading.value_parens, literal_value, Truth.ofBool]
  | groups gs =>
    cases gs with
    | nil => simp [termsText, ScopeTerms.Holds, Reading.value_parens, literal_value, Truth.ofBool]
    | cons group rest =>
      have hvalue : (reading equal (under name row)).value (termsText name dialect (.groups (group :: rest))) =
          some (Truth.any ((group :: rest).map fun group => Truth.all (group.map (ScopeTest.truth equal row)))) := by
        rw [termsText, Reading.value_parens]
        · refine Reading.value_or rfl rfl _ ?_ ?_ (by simp)
          · intro run hrun
            obtain ⟨g, _, rfl⟩ := List.mem_map.mp hrun
            exact groupText_plain dialect g
          · rw [List.map_map, List.map_map]
            exact List.map_congr_left fun g hg => groupText_value dialect (hne _ rfl g hg)
        · simp
      rw [hvalue, Option.some.injEq, Truth.any_eq_true]
      simp only [List.mem_map, exists_exists_and_eq_and, Truth.all_eq_true, forall_exists_index, and_imp,
        forall_apply_eq_imp_iff₂, ScopeTerms.Holds]

/-! ## What the handles' node says -/

theorem printAll_values (values : List String) :
    printAll (values.map fun value => .value (.text value)) = values.map fun value => [.word (.param (.text value))] := by
  induction values with
  | nil => rfl
  | cons value values ih => rw [List.map_cons, printAll, ih]; rfl

theorem params_joined (hne : values ≠ []) :
    params (joined .comma (values.map fun value => [.word (.param (.text value))])) = some (values.map .text) := by
  induction values with
  | nil => exact absurd rfl hne
  | cons value values ih =>
    cases values with
    | nil => rfl
    | cons next values =>
      have := ih (by simp)
      simp only [List.map_cons] at this
      simp [joined, params, this]

theorem inList_print (column : String) (values : List String) :
    (inList name column values).print =
      [.word (.name name), .word .dot, .word (.name column), .word (.operator "in"),
        .group (joined .comma (values.map fun value => [.word (.param (.text value))]))] := by
  rw [inList, Nodes.column, OperationNode.print, OperationNode.print, OperationNode.print, OperationNode.print, printAll_values]
  rfl

theorem equals_print (column value : String) :
    (Nodes.equals name column (.text value)).print =
      [.word (.name name), .word .dot, .word (.name column), .word (.operator "="), .word (.param (.text value))] := by
  simp [Nodes.equals, Nodes.column, OperationNode.print]

theorem inList_value (column : String) (hne : values ≠ []) :
    (reading equal (under name row)).Plain (inList name column values).print ∧
      (reading equal (under name row)).runValue (inList name column values).print =
        some (isIn equal (row column) (values.map .text)) := by
  rw [inList_print]
  refine ⟨?_, ?_⟩
  · intro w hw
    simp only [List.mem_cons, Item.word.injEq, List.not_mem_nil, or_false, reduceCtorEq] at hw
    rcases hw with rfl | rfl | rfl | rfl <;> exact ⟨rfl, rfl⟩
  · obtain ⟨value, rest, rfl⟩ := List.exists_cons_of_ne_nil hne
    have hparams := params_joined hne
    rw [List.map_cons, joined_cons] at hparams
    rw [List.map_cons, joined_cons]
    simp only [Reading.runValue, reading, List.singleton_append] at hparams ⊢
    simp [test_in, hparams]

theorem equals_value (column value : String) :
    (reading equal (under name row)).Plain (Nodes.equals name column (.text value)).print ∧
      (reading equal (under name row)).runValue (Nodes.equals name column (.text value)).print =
        some (equals equal (row column) (.text value)) := by
  rw [equals_print]
  refine ⟨?_, by simp [Reading.runValue, reading, test_equals]⟩
  intro w hw
  simp only [List.mem_cons, Item.word.injEq, List.not_mem_nil, or_false] at hw
  rcases hw with rfl | rfl | rfl | rfl | rfl <;> exact ⟨rfl, rfl⟩

theorem foldl_and_print (node : OperationNode) (rest : List OperationNode) :
    (rest.foldl OperationNode.and node).print = joined .and ((node :: rest).map OperationNode.print) := by
  rw [List.map_cons, joined_cons]
  induction rest generalizing node with
  | nil => simp
  | cons next rest ih => rw [List.foldl_cons, ih]; simp [Nodes.print_and]

theorem foldl_or_print (node : OperationNode) (rest : List OperationNode) :
    (rest.foldl OperationNode.or node).print = joined .or ((node :: rest).map OperationNode.print) := by
  rw [List.map_cons, joined_cons]
  induction rest generalizing node with
  | nil => simp
  | cons next rest ih => rw [List.foldl_cons, ih]; simp [Nodes.print_or]

/-- A conjunction of tests is true where each is. -/
theorem allOf_true {nodes : List OperationNode} {node : OperationNode} (h : allOf nodes = some node) (vs : List Truth)
    (hplain : ∀ n ∈ nodes, (reading equal (under name row)).Plain n.print)
    (hvs : nodes.map (fun n => (reading equal (under name row)).runValue n.print) = vs.map some) :
    NodeTrue equal name row (some node) ↔ ∀ v ∈ vs, v = .true := by
  cases nodes with
  | nil => cases h
  | cons first rest =>
    cases h
    rw [NodeTrue, foldl_and_print, Reading.value_and rfl vs]
    · simp
    · intro run hrun
      obtain ⟨n, hn, rfl⟩ := List.mem_map.mp hrun
      exact hplain n hn
    · rw [List.map_map]
      exact hvs
    · simp

/-- A disjunction of tests is true where one is; of none, nowhere. -/
theorem anyOf_true {nodes : List OperationNode} (vs : List Truth)
    (hplain : ∀ n ∈ nodes, (reading equal (under name row)).Plain n.print)
    (hvs : nodes.map (fun n => (reading equal (under name row)).runValue n.print) = vs.map some) :
    NodeTrue equal name row (anyOf nodes) ↔ ∃ v ∈ vs, v = .true := by
  cases nodes with
  | nil =>
    cases vs with
    | nil => simp [anyOf, NodeTrue]
    | cons _ _ => cases hvs
  | cons first rest =>
    cases rest with
    | nil =>
      cases vs with
      | nil => cases hvs
      | cons v vs =>
        simp only [List.map_cons, List.map_nil, List.cons.injEq] at hvs
        obtain ⟨hv, hvs⟩ := hvs
        cases vs with
        | cons _ _ => cases hvs
        | nil =>
          rw [anyOf, NodeTrue, Reading.value_run (hplain first List.mem_cons_self), hv]
          simp [eq_comm]
    | cons next rest =>
      rw [anyOf, NodeTrue, OperationNode.print, Reading.value_parens, foldl_or_print, Reading.value_or rfl rfl vs]
      · rw [Option.some.injEq, Truth.any_eq_true]
      · intro run hrun
        obtain ⟨n, hn, rfl⟩ := List.mem_map.mp hrun
        exact hplain n hn
      · rw [List.map_map]
        exact hvs
      · simp
      · simp

/-! ## The tests of a Within -/

theorem containerTests_filled (h : containerTests model grant = .ok tests) : ∀ test ∈ tests, test.values ≠ [] := by
  obtain ⟨found, hfound, h⟩ := except_bind_eq_ok.mp h
  cases h
  intro test ht
  rw [List.mem_filterMap] at ht
  obtain ⟨_, hmem, rfl⟩ := ht
  obtain ⟨container, _, hf⟩ := except_mapM_mem hfound _ hmem
  split at hf
  · cases hf
  · split at hf
    · cases hf
    · rename_i hne
      cases hf
      exact hne

theorem containedTests_filled (h : containedTests model grant = .ok tests) : ∀ test ∈ tests, test.values ≠ [] := by
  obtain ⟨found, hfound, h⟩ := except_bind_eq_ok.mp h
  cases h
  intro test ht
  rw [List.mem_filterMap] at ht
  obtain ⟨_, hmem, rfl⟩ := ht
  obtain ⟨contained, _, hf⟩ := except_mapM_mem hfound _ hmem
  split at hf
  · cases hf
  · split at hf
    · split at hf
      · cases hf
      · rename_i hne
        cases hf
        exact hne
    · cases hf

/-- What both spellings of a `Within` are made of. -/
def withinTests (model : TableModel) (column : String) (values : List String) (grant : WithinGrant) :
    Checked (List ColumnTest) := do
  let containers ← containerTests model grant
  let contained ← containedTests model grant
  checkSize grant
  return ownTests column values ++ containers ++ contained

theorem withinTests_filled {column : String} (h : withinTests model column values grant = .ok tests) :
    ∀ test ∈ tests, test.values ≠ [] := by
  obtain ⟨containers, hcontainers, h⟩ := except_bind_eq_ok.mp h
  obtain ⟨contained, hcontained, h⟩ := except_bind_eq_ok.mp h
  obtain ⟨_, _, h⟩ := except_bind_eq_ok.mp h
  cases h
  intro test ht
  rcases List.mem_append.mp ht with ht | ht
  · rcases List.mem_append.mp ht with ht | ht
    · unfold ownTests at ht
      split at ht
      · cases ht
      · rename_i hne
        cases List.mem_singleton.mp ht
        exact hne
    · exact containerTests_filled hcontainers test ht
  · exact containedTests_filled hcontained test ht

theorem withinPredicate_eq (model : TableModel) (column : String) (grant : WithinGrant) (hv : grant.values = .values values) :
    withinPredicate model column grant = (withinTests model column values grant).map fun tests =>
      anyOf (tests.map fun test => inList model.name test.column test.values) := by
  simp only [withinPredicate, hv, withinTests]
  cases containerTests model grant with
  | error e => rfl
  | ok containers =>
    cases containedTests model grant with
    | error e => rfl
    | ok contained =>
      cases checkSize grant with
      | error e => rfl
      | ok u => rfl

/-- The terms of a `Within` that reaches the table by `column`, once its action is checked. -/
theorem withinTerms_eq {column : String} (hreach : reachColumn model grant.dimension = some column)
    (haction : includes model.actions.read grant.action = true) :
    withinTerms model .read grant = match grant.values with
      | .all => .ok .all
      | .values values => (withinTests model column values grant).map fun tests =>
        .groups (tests.map fun test => [⟨test.column, .list test.values⟩]) := by
  simp only [withinTerms, hreach, haction, withinTests]
  cases grant.values with
  | all => rfl
  | values values =>
    cases containerTests model grant with
    | error e => rfl
    | ok containers =>
      cases containedTests model grant with
      | error e => rfl
      | ok contained =>
        cases checkSize grant with
        | error e => rfl
        | ok u => rfl

theorem checkAction_eq (hread : model.actions.read ≠ []) (action : String) :
    checkAction model action = if includes model.actions.read action then .ok () else
      refuse .wrongAction ("read on " ++ model.name ++ " requires " ++ " or ".intercalate model.actions.read
        ++ "; the capability holds " ++ action) := by
  simp only [checkAction, requiredActions, hread, if_false]
  rfl

/-! ## The agreement -/

/-- The node a handle reads the table with: `ctx.db.within` lists any dimension or child table
    the `Within` reaches; `ctx.db.target` reads the owner's own row, its children and the
    tables it contains. -/
inductive HandleRead (models : List TableModel) (T : TableModel) : CapabilityGrant → Checked (Option OperationNode) → Prop
  | within {grant : WithinGrant} : (∀ reason key, T.scope ≠ .app reason key) →
      HandleRead models T (.within grant) (reachPredicate T (.within grant))
  | target {grant : RefGrant} {key : String} {container : Option Container} :
      T.scope = .dimension grant.dimension key container →
      HandleRead models T (.ref grant) ((targetRead T (.ref grant) grant.dimension).map some)
  | child {grant : RefGrant} {O : TableModel} {key column ownerKey : String} {inherit : List String}
      {container : Option Container} :
      O ∈ models → O.scope = .dimension grant.dimension ownerKey container → T.scope = .child O.name key column inherit →
      HandleRead models T (.ref grant) ((subtreeRead T (.ref grant) grant.dimension).map some)
  | contained {grant : RefGrant} {dimension key : String} {container : Container} :
      T.scope = .dimension dimension key (some container) → container.dimension = grant.dimension →
      HandleRead models T (.ref grant) ((subtreeRead T (.ref grant) grant.dimension).map some)

/-- The node and the terms refuse together, and else are true of the same rows. -/
structure Agree (T : TableModel) (node : Checked (Option OperationNode)) (terms : Checked ScopeTerms) : Prop where
  refused : (∃ e, node = .error e) ↔ ∃ e, terms = .error e
  /-- Two checks are made in the other order, so only a grant refused for both gives two reasons. -/
  reason : ∀ e e', node = .error e → terms = .error e' →
    e.reason = e'.reason ∨ (e.reason = .wrongAction ∧ e'.reason = .outOfReach)
  same : ∀ n t, node = .ok n → terms = .ok t → ∀ (V : Type) (equal : V → Bound → Bool) (row : Cells V) (name : String)
    (dialect : SqlDialect), FragmentTrue equal name row t dialect ↔ NodeTrue equal T.name row n

theorem Agree.refuse_both {reason : Reason} {message message' : String} :
    Agree T (refuse reason message) (refuse reason message') where
  refused := ⟨fun _ => ⟨_, rfl⟩, fun _ => ⟨_, rfl⟩⟩
  reason := by
    intro e e' he he'
    cases he
    cases he'
    exact .inl rfl
  same := by
    intro n t hn
    cases hn

theorem within_true (hfilled : ∀ test ∈ tests, test.values ≠ []) (dialect : SqlDialect) :
    FragmentTrue equal name row (.groups (tests.map fun test => [⟨test.column, .list test.values⟩])) dialect ↔
      NodeTrue equal T.name row (anyOf (tests.map fun test => inList T.name test.column test.values)) := by
  rw [fragmentTrue_iff, anyOf_true (tests.map fun test => isIn equal (row test.column) (test.values.map .text))]
  · simp [ScopeTerms.Holds, ScopeTest.truth, TestValue.truth]
  · intro n hn
    obtain ⟨test, ht, rfl⟩ := List.mem_map.mp hn
    exact (inList_value test.column (hfilled test ht)).1
  · rw [List.map_map, List.map_map]
    exact List.map_congr_left fun test ht => (inList_value test.column (hfilled test ht)).2
  · intro gs hgs group hg
    cases hgs
    obtain ⟨test, _, rfl⟩ := List.mem_map.mp hg
    simp

theorem agree_within (hread : T.actions.read ≠ []) (happ : ∀ reason key, T.scope ≠ .app reason key) (grant : WithinGrant) :
    Agree T (reachPredicate T (.within grant)) (scopeTerms T (.within grant) .read) := by
  have hterms : scopeTerms T (.within grant) .read = withinTerms T .read grant := by
    cases hs : T.scope with
    | app reason key => exact absurd hs (happ reason key)
    | dimension _ _ _ | child _ _ _ _ | reference _ => simp only [scopeTerms, hs]; rfl
  rw [hterms, reachPredicate, checkAction_eq hread]
  by_cases haction : includes T.actions.read grant.action = true
  · rw [if_pos haction]
    cases hreach : reachColumn T grant.dimension with
    | none =>
      simp only [withinTerms, hreach]
      exact .refuse_both
    | some column =>
      rw [withinTerms_eq hreach haction]
      show Agree T (withinPredicate T column grant) _
      cases hv : grant.values with
      | all =>
        simp only [withinPredicate, hv]
        refine ⟨⟨fun h => (by obtain ⟨_, h⟩ := h; cases h), fun h => (by obtain ⟨_, h⟩ := h; cases h)⟩,
          fun _ _ h => (by cases h), ?_⟩
        intro n t hn ht V equal row name dialect
        cases hn
        cases ht
        rw [fragmentTrue_iff _ _ (by intro gs hgs; cases hgs)]
        simp [ScopeTerms.Holds, NodeTrue, everything, OperationNode.print, literal_value, Truth.ofBool]
      | values values =>
        rw [withinPredicate_eq T column grant hv]
        dsimp only
        cases htests : withinTests T column values grant with
        | error e =>
          refine ⟨⟨fun _ => ⟨_, rfl⟩, fun _ => ⟨_, rfl⟩⟩, ?_, fun _ _ h => (by cases h)⟩
          intro e e' he he'
          cases he
          cases he'
          exact .inl rfl
        | ok tests =>
          refine ⟨⟨fun h => (by obtain ⟨_, h⟩ := h; cases h), fun h => (by obtain ⟨_, h⟩ := h; cases h)⟩,
            fun _ _ h => (by cases h), ?_⟩
          intro n t hn ht V equal row name dialect
          cases hn
          cases ht
          exact within_true (withinTests_filled htests) dialect
  · rw [if_neg haction]
    -- The action is no read action: the terms may find first that the table is out of reach.
    have hterms' : ∃ e, withinTerms T .read grant = .error e ∧ (e.reason = .wrongAction ∨ e.reason = .outOfReach) := by
      cases hreach : reachColumn T grant.dimension with
      | none => exact ⟨_, by simp only [withinTerms, hreach]; rfl, .inr rfl⟩
      | some column => exact ⟨_, by simp [withinTerms, hreach, haction]; rfl, .inl rfl⟩
    obtain ⟨e, he, hreason⟩ := hterms'
    refine ⟨⟨fun _ => ⟨e, he⟩, fun _ => ⟨_, rfl⟩⟩, ?_, fun _ _ h => (by cases h)⟩
    intro e₁ e₂ h₁ h₂
    cases h₁
    rw [he] at h₂
    cases h₂
    rcases hreason with h | h
    · exact .inl h.symm
    · exact .inr ⟨rfl, h⟩

/-! ## A Ref -/

theorem linkValues_ne_nil {table : String} {links : List Container} {grant : RefGrant} {values : List LinkValue}
    (h : linkValues table links grant = .ok values) : values ≠ [] := by
  cases links with
  | nil => cases h
  | cons first rest =>
    simp only [linkValues] at h
    split at h
    · cases h
    · obtain ⟨others, _, h⟩ := except_bind_eq_ok.mp h
      cases h
      simp

theorem ref_true {values : List LinkValue} (hne : values ≠ []) {node : OperationNode}
    (hnode : linksPredicate T.name values = .ok node) (dialect : SqlDialect) :
    FragmentTrue equal name row (.groups [values.map fun entry => ⟨entry.link.column, .one entry.value⟩]) dialect ↔
      NodeTrue equal T.name row (some node) := by
  have hall : allOf (values.map fun entry => Nodes.equals T.name entry.link.column (.text entry.value)) = some node := by
    unfold linksPredicate at hnode
    split at hnode
    · rename_i hsome
      cases hnode
      exact hsome
    · cases hnode
  rw [fragmentTrue_iff, allOf_true hall (values.map fun entry => equals equal (row entry.link.column) (.text entry.value))]
  · simp [ScopeTerms.Holds, ScopeTest.truth, TestValue.truth]
  · intro n hn
    obtain ⟨entry, _, rfl⟩ := List.mem_map.mp hn
    exact (equals_value entry.link.column entry.value).1
  · rw [List.map_map, List.map_map]
    exact List.map_congr_left fun entry _ => (equals_value entry.link.column entry.value).2
  · intro gs hgs group hg
    cases hgs
    cases List.mem_singleton.mp hg
    simpa using hne

theorem linksPredicate_ok (table : String) {values : List LinkValue} (hne : values ≠ []) :
    ∃ node, linksPredicate table values = .ok node := by
  obtain ⟨first, rest, rfl⟩ := List.exists_cons_of_ne_nil hne
  exact ⟨_, rfl⟩

/-- Over one list of links, both spellings check the action and take the same values. -/
theorem agree_ref {grant : RefGrant} (links : List Container) (happ : ∀ reason key, T.scope ≠ .app reason key)
    (hlinks : linksFrom grant.dimension (refLinks T) = some links) {predicate : RefGrant → Checked OperationNode}
    (hpredicate : predicate grant = (linkValues T.name links grant).bind (linksPredicate T.name)) :
    Agree T (((namedRef T (.ref grant) grant.dimension).bind predicate).map some) (scopeTerms T (.ref grant) .read) := by
  have hterms : scopeTerms T (.ref grant) .read = refTerms T .read grant := by
    cases hs : T.scope with
    | app reason key => exact absurd hs (happ reason key)
    | dimension _ _ _ | child _ _ _ _ | reference _ => simp only [scopeTerms, hs]; rfl
  rw [hterms]
  cases haction : T.namesAction grant.action with
  | false =>
    have hnamed : namedRef T (.ref grant) grant.dimension = refuse .wrongAction (T.name ++ " does not name the action '"
        ++ grant.action ++ "': read it from an endpoint whose action " ++ T.name ++ " names, or declare unscoped") := by
      simp [namedRef, haction]
    have hterms' : refTerms T .read grant = refuse .wrongAction (T.name ++ " does not name the action " ++ grant.action
        ++ ": a Ref reads it with an action it names") := by
      simp [refTerms, hlinks, haction]
    rw [hnamed, hterms']
    exact Agree.refuse_both
  | true =>
    have hnamed : namedRef T (.ref grant) grant.dimension = .ok grant := by simp [namedRef, haction]; rfl
    have hterms' : refTerms T .read grant = (linkValues T.name links grant).map fun values =>
        .groups [values.map fun entry => ⟨entry.link.column, .one entry.value⟩] := by
      simp only [refTerms, hlinks, haction]
      cases linkValues T.name links grant with
      | error e => rfl
      | ok values => rfl
    rw [hnamed, hterms', show ((Except.ok grant : Checked RefGrant).bind predicate) = predicate grant from rfl, hpredicate]
    cases hvalues : linkValues T.name links grant with
    | error e =>
      refine ⟨⟨fun _ => ⟨_, rfl⟩, fun _ => ⟨_, rfl⟩⟩, ?_, fun _ _ h => (by cases h)⟩
      intro e e' he he'
      cases he
      cases he'
      exact .inl rfl
    | ok values =>
      have hne := linkValues_ne_nil hvalues
      obtain ⟨node, hnode⟩ := linksPredicate_ok T.name hne
      rw [show ((Except.ok values : Checked _).bind (linksPredicate T.name)) = linksPredicate T.name values from rfl, hnode]
      refine ⟨⟨fun ⟨_, h⟩ => (by cases h), fun ⟨_, h⟩ => (by cases h)⟩, fun _ _ h => (by cases h), ?_⟩
      intro n t hn ht V equal row name dialect
      cases hn
      cases ht
      exact ref_true hne hnode dialect

/-- The scope spliced into an author's text and the scope of the handles are one: refused
    together, and true of the same rows. -/
theorem scope_agrees {columns : Record TableColumns} {policies : Record TablePolicy} {vocabulary : Vocabulary}
    {models : List TableModel} (h : readTables columns policies vocabulary = .ok models) {T : TableModel} (hT : T ∈ models)
    {grant : CapabilityGrant} {node : Checked (Option OperationNode)} (hread : HandleRead models T grant node) :
    Agree T node (scopeTerms T grant .read) := by
  obtain ⟨parsed, ⟨accepted⟩⟩ := readTables_accepted h
  cases hread with
  | within happ => exact agree_within (accepted.read_action hT) happ _
  | target hs =>
    rename_i grant key container
    refine agree_ref (⟨grant.dimension, key⟩ :: T.chain) (by intro _ _ he; rw [hs] at he; cases he) ?_ ?_
    · simp [refLinks, hs, linksFrom]
    · simp only [targetPredicate, selfLinks, hs]
      rfl
  | child hO hs' hs =>
    obtain ⟨rest, hchain⟩ := accepted.child_chain hT hO hs hs'
    refine agree_ref T.chain (by intro _ _ he; rw [hs] at he; cases he) ?_ rfl
    simp [refLinks, hs, hchain, linksFrom]
  | contained hs hd =>
    obtain ⟨⟨rest, hchain⟩, hne⟩ := accepted.contained_chain hT hs
    refine agree_ref T.chain (by intro _ _ he; rw [hs] at he; cases he) ?_ rfl
    rw [hd] at hne
    simp [refLinks, hs, hchain, linksFrom, hd, hne.symm]

open Fabrika.Db.Containment (tasksColumns tasksPolicies tasksVocabulary tasksModels readTables_modelsOf)

/-- Of two projects, of every project of an organization, and of one task elsewhere. -/
def projectsWithin : WithinGrant :=
  { dimension := "project", action := "read", principal := "ann", values := .values ["p1", "p2"],
    containers := [⟨"org", ["o1"]⟩], contained := [⟨"task", ["t9"]⟩] }

def taskRef : RefGrant :=
  { dimension := "task", action := "read", principal := "ann", id := "t1",
    chain := [⟨"project", "p1"⟩, ⟨"org", "o1"⟩].toAList }

theorem task_scopes_agree : ∃ T ∈ tasksModels, T.name = "tasks" ∧
    (scopeTerms T (.within projectsWithin) .read = .ok (.groups [[⟨"project_id", .list ["p1", "p2"]⟩],
      [⟨"org_id", .list ["o1"]⟩], [⟨"id", .list ["t9"]⟩]])) ∧
    Agree T (reachPredicate T (.within projectsWithin)) (scopeTerms T (.within projectsWithin) .read) ∧
    Agree T ((targetRead T (.ref taskRef) "task").map some) (scopeTerms T (.ref taskRef) .read) := by
  have hread : readTables tasksColumns tasksPolicies tasksVocabulary = .ok tasksModels :=
    readTables_modelsOf (by decide +kernel)
  obtain ⟨T, hT, hname, hscope, hterms⟩ : ∃ T ∈ tasksModels, T.name = "tasks" ∧
      T.scope = .dimension "task" "id" (some ⟨"project", "project_id"⟩) ∧
      (scopeTerms T (.within projectsWithin) .read).toOption = some (.groups [[⟨"project_id", .list ["p1", "p2"]⟩],
        [⟨"org_id", .list ["o1"]⟩], [⟨"id", .list ["t9"]⟩]]) := by
    decide +kernel
  refine ⟨T, hT, hname, ?_, scope_agrees hread hT (.within ?_), scope_agrees hread hT (.target hscope)⟩
  · cases hs : scopeTerms T (.within projectsWithin) .read with
    | error e => rw [hs] at hterms; cases hterms
    | ok terms => rw [hs] at hterms; cases hterms; rfl
  · intro reason key happ
    rw [hscope] at happ
    cases happ

end Fabrika.Db.Scope
