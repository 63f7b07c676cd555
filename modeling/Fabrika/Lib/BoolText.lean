/-
  Fabrika.Lib.BoolText — boolean text under three-valued logic.

  Text is a list of items, a word or a parenthesis with the items in it. Its value is read as
  SQL reads it: `and` binds tighter than `or`, a parenthesis alone between two connectives is
  the text in it, and any other run of items between two connectives is a test of its own,
  whose value the reader is given. Text that is no condition (an empty run) has no value.
-/

import Mathlib.Data.List.Basic

namespace Fabrika.Lib

/-! ## Three-valued logic -/

inductive Truth
  | true
  | false
  | unknown
  deriving DecidableEq

namespace Truth

def ofBool (b : Bool) : Truth := if b then .true else .false

def and : Truth → Truth → Truth
  | .false, _ => .false
  | _, .false => .false
  | .true, .true => .true
  | _, _ => .unknown

def or : Truth → Truth → Truth
  | .true, _ => .true
  | _, .true => .true
  | .false, .false => .false
  | _, _ => .unknown

@[simp] theorem and_eq_true {a b : Truth} : a.and b = .true ↔ a = .true ∧ b = .true := by
  cases a <;> cases b <;> decide

@[simp] theorem or_eq_true {a b : Truth} : a.or b = .true ↔ a = .true ∨ b = .true := by
  cases a <;> cases b <;> decide

@[simp] theorem true_and (a : Truth) : Truth.true.and a = a := by cases a <;> rfl

@[simp] theorem false_or (a : Truth) : Truth.false.or a = a := by cases a <;> rfl

theorem and_assoc (a b c : Truth) : (a.and b).and c = a.and (b.and c) := by
  cases a <;> cases b <;> cases c <;> rfl

theorem or_assoc (a b c : Truth) : (a.or b).or c = a.or (b.or c) := by
  cases a <;> cases b <;> cases c <;> rfl

/-- The conjunction of a list; of none, true. -/
def all (ts : List Truth) : Truth := ts.foldr and .true

/-- The disjunction of a list; of none, false. -/
def any (ts : List Truth) : Truth := ts.foldr or .false

@[simp] theorem all_eq_true {ts : List Truth} : all ts = .true ↔ ∀ t ∈ ts, t = .true := by
  induction ts with
  | nil => simp [all]
  | cons t ts ih => rw [List.forall_mem_cons, ← ih]; exact and_eq_true

@[simp] theorem any_eq_true {ts : List Truth} : any ts = .true ↔ ∃ t ∈ ts, t = .true := by
  induction ts with
  | nil => simp [any]
  | cons t ts ih =>
    rw [show any (t :: ts) = t.or (any ts) from rfl, or_eq_true, ih]
    simp [eq_comm]

end Truth

/-! ## Text -/

inductive Item (α : Type) where
  | word (w : α)
  | group (items : List (Item α))

/-- Text as it is written, its parentheses open and close. -/
inductive Tok (α : Type)
  | opening
  | closing
  | word (w : α)

mutual

def Item.write {α : Type} : Item α → List (Tok α)
  | .word w => [.word w]
  | .group items => .opening :: (writeAll items ++ [.closing])

def writeAll {α : Type} : List (Item α) → List (Tok α)
  | [] => []
  | item :: rest => item.write ++ writeAll rest

end

/-- The text of what is written: `items` are those of the innermost open parenthesis, last
    first, and `outer` those around it. Nothing is read of a parenthesis left open or closed
    twice. -/
def readFrom {α : Type} (items : List (Item α)) (outer : List (List (Item α))) : List (Tok α) → Option (List (Item α))
  | [] => if outer.isEmpty then some items.reverse else none
  | .opening :: rest => readFrom [] (items :: outer) rest
  | .closing :: rest =>
    match outer with
    | [] => none
    | around :: outer => readFrom (.group items.reverse :: around) outer rest
  | .word w :: rest => readFrom (.word w :: items) outer rest

def readText {α : Type} (written : List (Tok α)) : Option (List (Item α)) := readFrom [] [] written

/-- Texts with a word between each two. -/
def joined {α : Type} (w : α) : List (List (Item α)) → List (Item α)
  | [] => []
  | [text] => text
  | text :: next :: rest => text ++ .word w :: joined w (next :: rest)

section

variable {α : Type}

theorem joined_cons (w : α) (text : List (Item α)) (texts : List (List (Item α))) :
    joined w (text :: texts) = text ++ texts.flatMap fun next => .word w :: next := by
  induction texts generalizing text with
  | nil => simp [joined]
  | cons next texts ih => rw [joined, ih]; simp

theorem writeAll_append (a b : List (Item α)) : writeAll (a ++ b) = writeAll a ++ writeAll b := by
  induction a with
  | nil => rfl
  | cons item a ih => rw [List.cons_append, writeAll, writeAll, ih, List.append_assoc]

mutual

theorem readFrom_write (item : Item α) (items : List (Item α)) (outer : List (List (Item α))) (rest : List (Tok α)) :
    readFrom items outer (item.write ++ rest) = readFrom (item :: items) outer rest := by
  cases item with
  | word w => rfl
  | group inner =>
    rw [Item.write, List.cons_append, readFrom, List.append_assoc, readFrom_writeAll inner [] (items :: outer)]
    simp [readFrom]

theorem readFrom_writeAll (text items : List (Item α)) (outer : List (List (Item α))) (rest : List (Tok α)) :
    readFrom items outer (writeAll text ++ rest) = readFrom (text.reverse ++ items) outer rest := by
  cases text with
  | nil => rfl
  | cons item text =>
    rw [writeAll, List.append_assoc, readFrom_write item, readFrom_writeAll text]
    simp

end

/-- What is written of a text is read back. -/
theorem readText_writeAll (text : List (Item α)) : readText (writeAll text) = some text := by
  have := readFrom_writeAll text [] [] []
  simp only [List.append_nil] at this
  rw [readText, this]
  simp [readFrom]

end

/-- How a text is read: the connectives, and what a run between two of them says. -/
structure Reading (α : Type) where
  isAnd : α → Bool
  isOr : α → Bool
  test : List (Item α) → Option Truth

namespace Reading

variable {α : Type} (R : Reading α)

/-- The items since the last connective, and what they say: a parenthesis alone is the text
    in it. -/
structure Run (α : Type) where
  items : List (Item α)
  alone : Option (Option Truth)

def Run.empty : Run α := ⟨[], none⟩

def Run.push (run : Run α) (item : Item α) (inner : Option (Option Truth)) : Run α :=
  ⟨run.items ++ [item], if run.items.isEmpty then inner else none⟩

def close (run : Run α) : Option Truth :=
  match run.items, run.alone with
  | [], _ => none
  | _ :: _, some inner => inner
  | items, none => R.test items

mutual

/-- `done` is the disjunction of the conjunctions before this one, `held` this one so far. -/
def scan (done held : Truth) (run : Run α) : List (Item α) → Option Truth
  | [] => (R.close run).map fun v => done.or (held.and v)
  | .word w :: rest =>
    if R.isAnd w then (R.close run).bind fun v => scan done (held.and v) Run.empty rest
    else if R.isOr w then (R.close run).bind fun v => scan (done.or (held.and v)) .true Run.empty rest
    else scan done held (run.push (.word w) none) rest
  | item@(.group _) :: rest => scan done held (run.push item (some (inside item))) rest

/-- What a parenthesis says alone. -/
def inside : Item α → Option Truth
  | .word _ => none
  | .group items => scan .false .true Run.empty items

end

/-- The value of a text. -/
def value (items : List (Item α)) : Option Truth := R.scan .false .true Run.empty items

variable {R}

theorem inside_group (items : List (Item α)) : R.inside (.group items) = R.value items := by rw [inside, value]

/-- A run: items with no connective among them. -/
def Plain (R : Reading α) (items : List (Item α)) : Prop :=
  ∀ w, Item.word w ∈ items → R.isAnd w = false ∧ R.isOr w = false

/-- What a run says. -/
def runValue (R : Reading α) : List (Item α) → Option Truth
  | [] => none
  | [.group items] => R.value items
  | items => R.test items

/-- The run after some items of it. -/
def Run.after (R : Reading α) (run : Run α) : List (Item α) → Run α
  | [] => run
  | .word w :: rest => Run.after R (run.push (.word w) none) rest
  | .group items :: rest => Run.after R (run.push (.group items) (some (R.value items))) rest

variable {done held : Truth} {items : List (Item α)} {run : Run α} {runs : List (List (Item α))}

theorem scan_plain {rest : List (Item α)} (h : R.Plain items) :
    R.scan done held run (items ++ rest) = R.scan done held (run.after R items) rest := by
  induction items generalizing run with
  | nil => rfl
  | cons item items ih =>
    have htail : R.Plain items := fun w hw => h w (List.mem_cons_of_mem _ hw)
    cases item with
    | word w =>
      obtain ⟨hand, hor⟩ := h w List.mem_cons_self
      rw [List.cons_append, scan, hand, hor]
      exact ih htail
    | group inner =>
      rw [List.cons_append, scan, inside_group]
      exact ih htail

theorem scan_plain_end (h : R.Plain items) : R.scan done held run items = R.scan done held (run.after R items) [] := by
  have hscan : R.scan done held run (items ++ []) = R.scan done held (run.after R items) [] := scan_plain h
  rwa [List.append_nil] at hscan

theorem after_items (run : Run α) (items : List (Item α)) : (run.after R items).items = run.items ++ items := by
  induction items generalizing run with
  | nil => simp [Run.after]
  | cons item items ih =>
    cases item with
    | word w => rw [Run.after, ih]; simp [Run.push]
    | group inner => rw [Run.after, ih]; simp [Run.push]

theorem after_alone (hrun : run.items ≠ []) (hitems : items ≠ []) : (run.after R items).alone = none := by
  have hpush : ∀ (run : Run α) item inner, run.items ≠ [] → (run.push item inner).alone = none := by
    intro run item inner hne
    simp [Run.push, hne]
  induction items generalizing run with
  | nil => exact absurd rfl hitems
  | cons item items ih =>
    have hnext : ∀ inner, ((run.push item inner).after R items).alone = none := by
      intro inner
      by_cases hnil : items = []
      · subst hnil
        exact hpush run item inner hrun
      · exact ih (by simp [Run.push]) hnil
    cases item with
    | word w => exact hnext none
    | group inner => exact hnext _

theorem close_after (items : List (Item α)) : R.close (Run.empty.after R items) = R.runValue items := by
  cases items with
  | nil => rfl
  | cons item rest =>
    have hfirst : ∀ inner, (Run.empty.push item inner : Run α).items = [item] := fun inner => rfl
    by_cases hrest : rest = []
    · subst hrest
      cases item with
      | word w => rfl
      | group inner => rfl
    · have halone : ∀ inner, ((Run.empty.push item inner).after R rest).alone = none :=
        fun inner => after_alone (by simp [hfirst]) hrest
      have hclose : ∀ inner, R.close ((Run.empty.push item inner).after R rest) = R.test (item :: rest) := by
        intro inner
        have hitems : ((Run.empty.push item inner).after R rest).items = item :: rest := by
          rw [after_items, hfirst]
          rfl
        rw [close, hitems, halone inner]
      obtain ⟨next, others, rfl⟩ := List.exists_cons_of_ne_nil hrest
      cases item with
      | word w => exact hclose none
      | group inner => exact hclose _

/-- Runs between conjunctions: the conjunction of what they say. -/
theorem scan_and {a : α} (ha : R.isAnd a = true) {vs : List Truth} (hplain : ∀ run ∈ runs, R.Plain run)
    (hvs : runs.map R.runValue = vs.map some) (hne : runs ≠ []) :
    R.scan done held Run.empty (joined a runs) = some (done.or (held.and (Truth.all vs))) := by
  induction runs generalizing held vs with
  | nil => exact absurd rfl hne
  | cons run runs ih =>
    cases vs with
    | nil => cases hvs
    | cons v vs =>
      simp only [List.map_cons, List.cons.injEq] at hvs
      have hrun : R.close (Run.empty.after R run) = some v := by rw [close_after, hvs.1]
      have hplain' := hplain run List.mem_cons_self
      cases runs with
      | nil =>
        cases vs with
        | cons v' vs => cases hvs.2
        | nil =>
          rw [joined, scan_plain_end hplain', scan, hrun]
          simp [Truth.all]
          cases v <;> rfl
      | cons next runs =>
        rw [joined, scan_plain hplain']
        simp only [scan, ha, if_true, hrun, Option.bind_some]
        rw [ih (fun r hr => hplain r (List.mem_cons_of_mem _ hr)) hvs.2 (by simp), Truth.and_assoc]
        rfl

/-- Runs between disjunctions: the disjunction of what they say. -/
theorem scan_or {o : α} (ho : R.isOr o = true) (hno : R.isAnd o = false) {vs : List Truth} (hplain : ∀ run ∈ runs, R.Plain run)
    (hvs : runs.map R.runValue = vs.map some) (hne : runs ≠ []) :
    R.scan done .true Run.empty (joined o runs) = some (done.or (Truth.any vs)) := by
  induction runs generalizing done vs with
  | nil => exact absurd rfl hne
  | cons run runs ih =>
    cases vs with
    | nil => cases hvs
    | cons v vs =>
      simp only [List.map_cons, List.cons.injEq] at hvs
      have hrun : R.close (Run.empty.after R run) = some v := by rw [close_after, hvs.1]
      have hplain' := hplain run List.mem_cons_self
      cases runs with
      | nil =>
        cases vs with
        | cons v' vs => cases hvs.2
        | nil =>
          rw [joined, scan_plain_end hplain', scan, hrun]
          simp [Truth.any]
          cases v <;> rfl
      | cons next runs =>
        rw [joined, scan_plain hplain']
        simp only [scan, hno, ho, if_true, hrun, Option.bind_some, Bool.false_eq_true, if_false]
        rw [ih (fun r hr => hplain r (List.mem_cons_of_mem _ hr)) hvs.2 (by simp), Truth.true_and, Truth.or_assoc]
        rfl

theorem value_run (h : R.Plain items) : R.value items = R.runValue items := by
  rw [value, scan_plain_end h, scan, close_after]
  simp

theorem value_parens (items : List (Item α)) : R.value [.group items] = R.value items :=
  value_run fun w hw => by simp at hw

theorem value_and {a : α} (ha : R.isAnd a = true) (vs : List Truth) (hplain : ∀ run ∈ runs, R.Plain run)
    (hvs : runs.map R.runValue = vs.map some) (hne : runs ≠ []) : R.value (joined a runs) = some (Truth.all vs) := by
  rw [value, scan_and ha hplain hvs hne, Truth.true_and, Truth.false_or]

theorem value_or {o : α} (ho : R.isOr o = true) (hno : R.isAnd o = false) (vs : List Truth) (hplain : ∀ run ∈ runs, R.Plain run)
    (hvs : runs.map R.runValue = vs.map some) (hne : runs ≠ []) : R.value (joined o runs) = some (Truth.any vs) := by
  rw [value, scan_or ho hno hplain hvs hne, Truth.false_or]

end Reading

end Fabrika.Lib
