/-
  Fabrika.Platform.PlaceholdersProofs — the scanner of placeholders and the tokenizer of
  `Fabrika.Platform.MigrationSql` read one text alike, as long as no line comment leaves code
  behind a carriage return on its line and no digit stands before an `E'…'` that a backslash
  makes longer.

  The scanners have the same constructs in the same order. They differ in where a line comment ends
  and in whether a digit before `E'…'` keeps the backslashes plain; `turned` says what one turn
  does elsewhere, and `partsFrom_alike` carries it through a text.
-/

import Fabrika.Platform.Placeholders
import Fabrika.Platform.MigrationSqlProofs

namespace Fabrika.Platform.Placeholders

open Fabrika.Lib Fabrika.Platform.MigrationSql

/-! ## What is compared -/

def Part.original : Part → List Char
  | .copied text => text
  | .placeholder _ => ['?']

def Part.number : Part → Option Nat
  | .copied _ => none
  | .placeholder number => some number

/-- Of each character of the original, whether it was replaced. -/
def Part.marks : Part → List Bool
  | .copied text => text.map fun _ => false
  | .placeholder _ => [true]

/-- The token of a character that makes an operator of the `?` before it. -/
def endsOperator : Lexeme → Bool
  | .punct char => char = '?' || char = '|' || char = '&'
  | _ => false

/-- Of each character the tokenizer reads, whether it is a `?` token outside the operators, these read left to right. -/
def loneMarks : Lexemes → List Bool
  | [] => []
  | [(piece, text)] => text.map fun _ => piece.kind = .punct '?'
  | (piece, text) :: (next, after) :: later =>
    if piece.kind = .punct '?' ∧ endsOperator next.kind then (text ++ after).map (fun _ => false) ++ loneMarks later
    else (text.map fun _ => decide (piece.kind = .punct '?')) ++ loneMarks ((next, after) :: later)

/-- What a rewriting did to the text: it is the text with the lone `?` tokens numbered from 1. -/
structure Numbers (sql : List Char) (rewritten : RewrittenSql) (parts : List Part) : Prop where
  text : rewritten.text = parts.flatMap Part.written
  original : parts.flatMap Part.original = sql
  numbers : parts.filterMap Part.number = List.range' 1 rewritten.count
  marks : parts.flatMap Part.marks = loneMarks (lexemes sql)

structure Agrees (sql : List Char) : Prop where
  throws : (∃ message, rewritePlaceholders sql = .error message) ↔ (lexSql sql).unterminated.isSome
  rewrites : ∀ rewritten, rewritePlaceholders sql = .ok rewritten → ∃ parts, Numbers sql rewritten parts

/-! ## Where the two part -/

def textOf (ls : Lexemes) : List Char := ls.flatMap (·.2)

/-- What the tokenizer reads up to the next line feed is whole pieces, closed, and no lone `?`. -/
def quietLine (later : Lexemes) : Bool :=
  let line := later.takeWhile fun x => x.2.head? ≠ some '\n'
  line.all (fun x => x.1.kind.closed && !x.2.contains '\n') && (loneMarks line).all (! ·)

/-- The string ends at the same quote whether or not its backslashes escape. -/
def endsAlike (body : List Char) : Bool :=
  (quotedBody '\'' true body).size = (quotedBody '\'' false body).size &&
    (quotedBody '\'' true body).closed = (quotedBody '\'' false body).closed

/-- One token of the tokenizer, the character before it and what follows it. -/
def tame (before : Option Char) (text : List Char) (later : Lexemes) : Bool :=
  match text with
  | '-' :: '-' :: _ => quietLine later
  | char :: '\'' :: body =>
    !((char = 'E' || char = 'e') && before.any Char.isDigit) || endsAlike (body ++ textOf later)
  | _ => true

def inStep : Option Char → Lexemes → Bool
  | _, [] => true
  | before, (_, text) :: later => tame before text later && inStep text.getLast? later

/-! ## Scanners -/

theorem scanBlockComment_eq {depth : Nat} (h : 0 < depth) (text : List Char) :
    scanBlockComment depth text =
      if (blockComment depth text).2 = 0 then some (blockComment depth text).1 else none := by
  fun_induction scanBlockComment depth text with
  | case1 depth => simp [blockComment, Nat.ne_of_gt h]
  | case2 depth _ => simp [blockComment, Nat.ne_of_gt h]
  | case3 depth char next rest hopen ih =>
    rw [ih (Nat.succ_pos depth), blockComment, if_pos hopen]
    dsimp only
    split <;> rfl
  | case4 depth char next rest hopen hclose hlast =>
    rw [blockComment, if_neg hopen, if_pos hclose, if_pos hlast]
    rfl
  | case5 depth char next rest hopen hclose hlast ih =>
    rw [ih (by omega), blockComment, if_neg hopen, if_pos hclose, if_neg hlast]
    dsimp only
    split <;> rfl
  | case6 depth char next rest hopen hclose ih =>
    rw [ih h, blockComment, if_neg hopen, if_neg hclose]
    dsimp only
    split <;> rfl

theorem scanQuoted_eq (quote : Char) (escapes : Bool) (text : List Char) :
    scanQuoted quote escapes text =
      if (quotedBody quote escapes text).closed then some (quotedBody quote escapes text).size else none := by
  fun_induction scanQuoted quote escapes text with
  | case1 => rfl
  | case2 char hslash => simp [quotedBody, hslash]
  | case3 hslash => simp [quotedBody, hslash]
  | case4 char hslash hquote => simp [quotedBody, hslash, hquote]
  | case5 char next rest hslash ih =>
    rw [ih, quotedBody, if_pos hslash, Body.after]
    dsimp only
    split <;> simp [Nat.add_comm]
  | case6 rest hslash ih =>
    have hpair : (decide (quote = quote) && decide (quote = quote)) = true := by simp
    rw [ih, quotedBody, if_neg hslash, if_pos hpair, Body.after]
    dsimp only
    split <;> simp [Nat.add_comm]
  | case7 next rest hslash hne => simp [quotedBody, hslash, hne]
  | case8 char next rest hslash hquote ih =>
    have hpair : ¬((decide (char = quote) && decide (next = quote)) = true) := by simp [hquote]
    rw [ih, quotedBody, if_neg hslash, if_neg hpair, if_neg hquote, Body.after]
    dsimp only
    split <;> simp [Nat.add_comm]

/-! ## Lone marks -/

theorem loneMarks_of_ne {piece : Scan.Piece Lexeme} (h : piece.kind ≠ .punct '?') (text : List Char) (later : Lexemes) :
    loneMarks ((piece, text) :: later) = (text.map fun _ => false) ++ loneMarks later := by
  cases later with
  | nil => simp [loneMarks, h]
  | cons next later => simp [loneMarks, h]

/-- What is read next makes no operator of a `?` before it. -/
def apart (later : Lexemes) : Prop := ∀ x ∈ later.head?, endsOperator x.1.kind = false

variable {text : List Char}

variable {later : Lexemes}

theorem loneMarks_lone (h : apart later) (more : Nat) :
    loneMarks ((⟨.punct '?', more⟩, ['?']) :: later) = true :: loneMarks later := by
  cases later with
  | nil => simp [loneMarks]
  | cons next later =>
    have hnext : endsOperator next.1.kind = false := h next (by simp)
    simp [loneMarks, hnext]

theorem loneMarks_append {line : Lexemes} (h : apart later) :
    loneMarks (line ++ later) = loneMarks line ++ loneMarks later := by
  fun_induction loneMarks line with
  | case1 => rfl
  | case2 piece text =>
    cases later with
    | nil => simp [loneMarks]
    | cons next later =>
      have hnext : endsOperator next.1.kind = false := h next (by simp)
      simp [loneMarks, hnext]
  | case3 piece text next after line hpair ih =>
    simp only [List.cons_append, loneMarks, if_pos hpair, ih, List.append_assoc]
  | case4 piece text next after line hpair ih =>
    rw [List.cons_append, List.cons_append, loneMarks, if_neg hpair, ← List.cons_append, ih, List.append_assoc]

/-! ## One turn -/

/-- One turn beside the tokenizer's piece that starts at the same character. -/
inductive Turned (before : Option Char) (char : Char) (rest : List Char) : Prop
  | same : turn before char rest = .ok ⟨.copied, (lexAt char rest).more⟩ → (lexAt char rest).kind.closed = true →
      (lexAt char rest).kind ≠ .punct '?' → Turned before char rest
  | refused (message : String) : turn before char rest = .error message → (lexAt char rest).kind.closed = false →
      Turned before char rest
  | line : char = '-' → rest.head? = some '-' → Turned before char rest
  | mark : char = '?' → Turned before char rest
  | escape : before.any Char.isDigit = true → char = 'E' ∨ char = 'e' → rest.head? = some '\'' → Turned before char rest

section Turns

variable {before : Option Char} {char : Char} {rest : List Char}

theorem turned_block (h : rest.head? = some '*') : Turned before '/' rest := by
  obtain ⟨later, rfl⟩ : ∃ later, rest = '*' :: later := by
    cases rest with
    | nil => cases h
    | cons c later =>
      cases h
      exact ⟨later, rfl⟩
  have hlex := lexAt_block h
  have hscan : scanBlockComment 0 ('/' :: '*' :: later) = (scanBlockComment 1 later).map (· + 2) := rfl
  have hcomment : blockComment 0 ('/' :: '*' :: later) = ((blockComment 1 later).1 + 2, (blockComment 1 later).2) := rfl
  rw [hcomment] at hlex
  have hturn : turn before '/' ('*' :: later) =
      copyTo 0 ((scanBlockComment 0 ('/' :: '*' :: later)).map (· - 1)) "unterminated block comment in SQL" := rfl
  rw [hscan, scanBlockComment_eq Nat.one_pos] at hturn
  by_cases hclosed : (blockComment 1 later).2 = 0
  · apply Turned.same
    · rw [hturn, hlex, if_pos hclosed]
      simp [copyTo]
    · rw [hlex]
      simp [Lexeme.closed, hclosed]
    · rw [hlex]
      exact fun e => nomatch e
  · apply Turned.refused "unterminated block comment in SQL"
    · rw [hturn, if_neg hclosed]
      rfl
    · rw [hlex]
      simp [Lexeme.closed, hclosed]

/-- A turn that copies to the end of a quoted body, and the piece of that body. -/
theorem turned_quoted {quote : Char} {escapes : Bool} {body : List Char} {lead : Nat} {message : String} (kind : Bool → Lexeme)
    (hlex : lexAt char rest = ⟨kind (quotedBody quote escapes body).closed, lead + (quotedBody quote escapes body).size⟩)
    (hturn : turn before char rest = copyTo lead (scanQuoted quote escapes body) message)
    (hkind : ∀ closed, (kind closed).closed = closed ∧ kind closed ≠ .punct '?') : Turned before char rest := by
  rw [scanQuoted_eq] at hturn
  cases hclosed : (quotedBody quote escapes body).closed with
  | true =>
    rw [hclosed, if_pos rfl] at hturn
    apply Turned.same
    · rw [hturn, hlex]
      rfl
    · rw [hlex, hclosed]
      exact (hkind true).1
    · rw [hlex]
      exact (hkind _).2
  | false =>
    rw [hclosed, if_neg Bool.false_ne_true] at hturn
    apply Turned.refused message hturn
    rw [hlex, hclosed]
    exact (hkind false).1

theorem turned_dollar : Turned before '$' rest := by
  cases htag : dollarTagAt ('$' :: rest) with
  | none =>
    have hsingle : Single '$' rest := by
      refine ⟨rfl, rfl, by decide, fun e => absurd e (by decide), fun e => absurd e (by decide), fun _ => ?_⟩
      rw [← dollarTagAt_eq]
      exact htag
    apply Turned.same
    · rw [lexAt_single hsingle]
      simp [turn, htag]
    · rw [lexAt_single hsingle]
      rfl
    · rw [lexAt_single hsingle]
      decide
  | some tag =>
    have hdelimiter : Postgres.delimiter ('$' :: rest) = some tag := dollarTagAt_eq _ ▸ htag
    cases hstop : indexOf tag (rest.drop (tag.length - 1)) with
    | some stop =>
      have hlex := lexAt_tag_closed hdelimiter hstop
      apply Turned.same
      · rw [hlex]
        simp [turn, htag, hstop, copyTo]
      · rw [hlex]
        rfl
      · rw [hlex]
        exact fun e => nomatch e
    | none =>
      have hlex := lexAt_tag_open hdelimiter hstop
      apply Turned.refused (unterminatedDollar (String.ofList tag))
      · simp [turn, htag, hstop, copyTo]
      · rw [hlex]
        rfl

theorem turned_word (h : isWordStart char = true) : Turned before char rest := by
  have hne : ∀ c, isWordStart c = false → char ≠ c := by
    intro c hc e
    subst e
    exact absurd (h.symm.trans hc) (by decide)
  by_cases hescape : (char = 'E' ∨ char = 'e') ∧ rest.head? = some '\''
  · obtain ⟨hletter, hquote⟩ := hescape
    cases hdigit : before.any Char.isDigit with
    | true => exact .escape hdigit hletter hquote
    | false =>
      obtain ⟨body, rfl⟩ : ∃ body, rest = '\'' :: body := by
        cases rest with
        | nil => cases hquote
        | cons c body =>
          cases hquote
          exact ⟨body, rfl⟩
      have hturn : turn before char ('\'' :: body) = copyTo 1 (scanQuoted '\'' true body) (unterminatedQuoted '\'') := by
        simp [turn, hne '-' rfl, hne '/' rfl, hne '\'' rfl, hne '"' rfl, hne '$' rfl, h, hletter, hdigit,
          show isWordPart '\'' = false from rfl]
      exact turned_quoted (.string none) (lexAt_escape hletter) hturn fun closed => ⟨rfl, fun e => nomatch e⟩
  · have hplain : (char = 'E' ∨ char = 'e') → rest.head? ≠ some '\'' := fun hletter hquote => hescape ⟨hletter, hquote⟩
    have hlex := @lexAt_word char rest h hplain
    have hpart : Postgres.identCont = isWordPart := (funext isWordPart_eq).symm
    rw [hpart] at hlex
    have hnot : ¬(rest.takeWhile isWordPart = [] ∧ (char = 'E' ∨ char = 'e') ∧
        (rest.drop (rest.takeWhile isWordPart).length).head? = some '\'' ∧ (!before.any Char.isDigit) = true) := by
      rintro ⟨hnil, hletter, hquote, _⟩
      rw [hnil] at hquote
      exact hplain hletter hquote
    apply Turned.same
    · rw [hlex]
      simp only [turn, hne '-' rfl, hne '/' rfl, hne '\'' rfl, hne '"' rfl, hne '$' rfl, h, false_and, or_self, if_false,
        if_true, if_neg hnot]
    · rw [hlex]
      rfl
    · rw [hlex]
      exact fun e => nomatch e

theorem turned_string (h : char = '\'' ∨ char = '"') : Turned before char rest := by
  rcases h with rfl | rfl
  · have hlex := @lexAt_string rest
    rw [← Nat.zero_add (quotedBody '\'' false rest).size] at hlex
    exact turned_quoted (.string (some _)) hlex rfl fun closed => ⟨rfl, fun e => nomatch e⟩
  · have hlex := @lexAt_quoted rest
    rw [← Nat.zero_add (quotedBody '"' false rest).size] at hlex
    exact turned_quoted (.quoted _) hlex rfl fun closed => ⟨rfl, fun e => nomatch e⟩

/-- What one turn does beside the tokenizer, at any character. -/
theorem turned (before : Option Char) (char : Char) (rest : List Char) : Turned before char rest := by
  by_cases hline : char = '-' ∧ rest.head? = some '-'
  · exact .line hline.1 hline.2
  by_cases hblock : char = '/' ∧ rest.head? = some '*'
  · obtain ⟨rfl, hstar⟩ := hblock
    exact turned_block hstar
  by_cases hquote : char = '\'' ∨ char = '"'
  · exact turned_string hquote
  by_cases hdollar : char = '$'
  · subst hdollar
    exact turned_dollar
  by_cases hword : isWordStart char = true
  · exact turned_word hword
  by_cases hmark : char = '?'
  · exact .mark hmark
  -- Nothing longer begins here: the tokenizer reads a blank or a single character.
  have hturn : turn before char rest = .ok ⟨.copied, 0⟩ := by
    simp only [turn, hline, hblock, hquote, hdollar, hword, hmark, if_false, Bool.false_eq_true]
  have hword : isWordStart char = false := Bool.eq_false_iff.mpr hword
  cases hspace : Postgres.space char with
  | true =>
    apply Turned.same
    · rw [lexAt_space hspace]
      exact hturn
    · rw [lexAt_space hspace]
      rfl
    · rw [lexAt_space hspace]
      exact fun e => nomatch e
  | false =>
    have hsingle : Single char rest :=
      ⟨hspace, hword, not_or.mp hquote, fun e hd => hline ⟨e, hd⟩, fun e hd => hblock ⟨e, hd⟩, fun e => absurd e hdollar⟩
    apply Turned.same
    · rw [lexAt_single hsingle]
      exact hturn
    · rw [lexAt_single hsingle]
      rfl
    · rw [lexAt_single hsingle]
      exact fun e => hmark (Lexeme.punct.inj e)

end Turns

/-! ## Lines -/

theorem lexRule_total (char : Char) (rest : List Char) : lexRule char rest ≠ none := by
  simp [lexRule]

theorem lexemes_cons (char : Char) (rest : List Char) :
    lexemes (char :: rest) =
      (lexAt char rest, char :: rest.take (lexAt char rest).more) :: lexemes (rest.drop (lexAt char rest).more) :=
  Scan.scan_cons rfl

theorem loneMarks_length (ls : Lexemes) : (loneMarks ls).length = (textOf ls).length := by
  fun_induction loneMarks ls with
  | case1 => rfl
  | case2 piece text => simp [textOf]
  | case3 piece text next after later hpair ih =>
    simp only [textOf, List.flatMap_cons, List.length_append, List.length_map] at ih ⊢
    omega
  | case4 piece text next after later hpair ih =>
    simp only [textOf, List.flatMap_cons, List.length_append, List.length_map] at ih ⊢
    omega

/-- At a line feed, or at the end of the text. -/
def atLineEnd (text : List Char) : Prop := ∀ char ∈ text.head?, char = '\n'

theorem apart_of_atLineEnd (h : atLineEnd text) : apart (lexemes text) := by
  intro x hx
  cases text with
  | nil => cases hx
  | cons char rest =>
    obtain rfl := h char rfl
    rw [lexemes_cons, lexAt_space rfl] at hx
    cases hx
    rfl

/-- What the two read of a line's end behind a comment of the tokenizer. -/
structure Quiet (tail : List Char) (line : Lexemes) (after : List Char) : Prop where
  lexemes : lexemes tail = line ++ lexemes after
  drop : after = tail.drop (tail.takeWhile (· ≠ '\n')).length
  closed : ∀ x ∈ line, x.1.kind.closed = true
  marks : loneMarks line = (tail.takeWhile (· ≠ '\n')).map fun _ => false
  lineEnd : atLineEnd after

theorem quiet_of_quietLine {tail : List Char} (h : quietLine (lexemes tail) = true) : ∃ line after, Quiet tail line after := by
  generalize hline : (lexemes tail).takeWhile (fun x => decide (x.2.head? ≠ some '\n')) = line
  generalize hafter : (lexemes tail).dropWhile (fun x => decide (x.2.head? ≠ some '\n')) = after
  have hlexemes : lexemes tail = line ++ after := by
    rw [← hline, ← hafter, List.takeWhile_append_dropWhile]
  unfold quietLine at h
  simp only [hline, Bool.and_eq_true, List.all_eq_true, Bool.not_eq_true', List.contains_eq_mem, decide_eq_false_iff_not] at h
  obtain ⟨hall, hmarks⟩ := h
  have hend : atLineEnd (textOf after) := by
    cases after with
    | nil => exact fun _ h => nomatch h
    | cons x after =>
      have hx := List.head?_dropWhile_not (fun x : Scan.Piece Lexeme × List Char => decide (x.2.head? ≠ some '\n')) (lexemes tail)
      rw [hafter] at hx
      have hx : x.2.head? = some '\n' := by simpa using hx
      intro char hchar
      rw [textOf, List.flatMap_cons, List.head?_append, hx] at hchar
      exact (Option.some.inj hchar).symm
  have htext : tail = textOf line ++ textOf after := by
    have htotal := lexemes_text tail
    rw [hlexemes, List.flatMap_append] at htotal
    exact htotal.symm
  have htake : tail.takeWhile (· ≠ '\n') = textOf line := by
    have hfree : ∀ char ∈ textOf line, decide (char ≠ '\n') = true := by
      intro char hchar
      obtain ⟨x, hx, hchar⟩ := List.mem_flatMap.mp hchar
      exact decide_eq_true fun e => (hall x hx).2 (e ▸ hchar)
    rw [htext, List.takeWhile_append_of_pos hfree]
    cases hrest : textOf after with
    | nil => simp
    | cons char rest =>
      rw [hrest] at hend
      simp [hend char rfl]
  refine ⟨line, textOf after, ?_, ?_, fun x hx => (hall x hx).1, ?_, hend⟩
  · rw [hlexemes]
    exact congrArg (line ++ ·) (Scan.scan_append lexRule_total hlexemes).symm
  · rw [htake, htext, List.drop_left]
  · rw [htake]
    refine List.ext_getElem (by simp [loneMarks_length]) fun i hi hi' => ?_
    simpa using hmarks _ (List.getElem_mem hi)

/-! ## The whole text -/

section Whole

variable {fuel count : Nat} {before : Option Char} {char : Char} {rest : List Char}

variable {parts : List Part}

theorem partsFrom_ok {p : Scan.Piece Kind} (h : turn before char rest = .ok p) :
    partsFrom (fuel + 1) before count (char :: rest) =
      (partsFrom fuel (char :: rest.take p.more).getLast? (counted count p.kind) (rest.drop p.more)).map
        ([partOf count (char :: rest.take p.more) p.kind] ++ ·) := by
  rw [partsFrom, h]
  dsimp only [bind, Except.bind]
  cases partsFrom fuel (char :: rest.take p.more).getLast? (counted count p.kind) (rest.drop p.more) <;> rfl

theorem partsFrom_error {message : String} (h : turn before char rest = .error message) :
    partsFrom (fuel + 1) before count (char :: rest) = .error message := by
  rw [partsFrom, h]
  rfl

/-- The turns throw where the tokens have an open one, and replace the lone marks. -/
structure Alike (ls : Lexemes) (result : Except String (List Part)) : Prop where
  throws : (∃ message, result = .error message) ↔ ∃ x ∈ ls, x.1.kind.closed = false
  marks : ∀ parts, result = .ok parts → parts.flatMap Part.marks = loneMarks ls

theorem Alike.refused {ls : Lexemes} {message : String} (h : ∃ x ∈ ls, x.1.kind.closed = false) :
    Alike ls (.error message) :=
  ⟨⟨fun _ => h, fun _ => ⟨message, rfl⟩⟩, fun _ e => nomatch e⟩

/-- A stretch of the text that both read, before the rest. -/
theorem Alike.past {ls : Lexemes} {result : Except String (List Part)} (h : Alike ls result) (front : Lexemes) (parts : List Part)
    (hclosed : ∀ x ∈ front, x.1.kind.closed = true)
    (hmarks : loneMarks (front ++ ls) = parts.flatMap Part.marks ++ loneMarks ls) :
    Alike (front ++ ls) (result.map (parts ++ ·)) := by
  have hopen : (∃ x ∈ front ++ ls, x.1.kind.closed = false) ↔ ∃ x ∈ ls, x.1.kind.closed = false := by
    constructor
    · rintro ⟨x, hx, hx'⟩
      rcases List.mem_append.mp hx with hx | hx
      · exact absurd ((hclosed x hx).symm.trans hx') (by decide)
      · exact ⟨x, hx, hx'⟩
    · rintro ⟨x, hx, hx'⟩
      exact ⟨x, List.mem_append_right _ hx, hx'⟩
  cases result with
  | error message => exact .refused (hopen.mpr (h.throws.mp ⟨message, rfl⟩))
  | ok later =>
    constructor
    · rw [hopen, ← h.throws]
      constructor
      · rintro ⟨_, e⟩
        cases e
      · rintro ⟨_, e⟩
        cases e
    · rintro _ ⟨⟩
      rw [hmarks, List.flatMap_append, h.marks later rfl]

theorem alike_nil : Alike (lexemes []) (.ok []) := by
  constructor
  · constructor
    · rintro ⟨_, e⟩
      cases e
    · rintro ⟨_, hx, _⟩
      cases hx
  · rintro _ ⟨⟩
    rfl

theorem apart_of_head (h : ¬(rest.head? = some '?' ∨ rest.head? = some '|' ∨ rest.head? = some '&')) :
    apart (lexemes rest) := by
  intro x hx
  cases rest with
  | nil => cases hx
  | cons c later =>
    rw [lexemes_cons] at hx
    cases hx
    cases hkind : (lexAt c later).kind with
    | punct c' =>
      obtain ⟨rfl, _⟩ := lexAt_punct hkind
      simp only [List.head?_cons, Option.some.injEq, not_or] at h
      simp [endsOperator, h]
    | _ => rfl

theorem inStep_append {read : Lexemes} (h : inStep before (read ++ later) = true) : ∃ before', inStep before' later = true := by
  induction read generalizing before with
  | nil => exact ⟨before, h⟩
  | cons x read ih =>
    simp only [List.cons_append, inStep, Bool.and_eq_true] at h
    exact ih h.2

/-- What stands before a line feed does not matter. -/
theorem inStep_lineEnd {before' : Option Char} (hend : atLineEnd text) (h : inStep before' (lexemes text) = true) :
    inStep before (lexemes text) = true := by
  cases text with
  | nil => rfl
  | cons char rest =>
    obtain rfl := hend char rfl
    rw [lexemes_cons, inStep, Bool.and_eq_true] at h ⊢
    refine ⟨?_, h.2⟩
    rw [lexAt_space rfl]
    rfl

/-- The turns from one place on, with the fuel that is left. -/
abbrev AlikeFrom (fuel : Nat) : Prop :=
  ∀ (before : Option Char) (count : Nat) (text : List Char), text.length ≤ fuel → inStep before (lexemes text) = true →
    Alike (lexemes text) (partsFrom fuel before count text)

theorem alike_same (ih : AlikeFrom fuel) (hfuel : rest.length ≤ fuel)
    (hstep : inStep before (lexemes (char :: rest)) = true)
    (hturn : turn before char rest = .ok ⟨.copied, (lexAt char rest).more⟩) (hclosed : (lexAt char rest).kind.closed = true)
    (hkind : (lexAt char rest).kind ≠ .punct '?') :
    Alike (lexemes (char :: rest)) (partsFrom (fuel + 1) before count (char :: rest)) := by
  rw [lexemes_cons, inStep, Bool.and_eq_true] at hstep
  rw [partsFrom_ok hturn, lexemes_cons]
  have hlater := ih (char :: rest.take (lexAt char rest).more).getLast? count (rest.drop (lexAt char rest).more)
    (by rw [List.length_drop]; omega) hstep.2
  apply hlater.past [_] [_]
  · intro x hx
    obtain rfl := List.mem_singleton.mp hx
    exact hclosed
  · rw [List.singleton_append, loneMarks_of_ne hkind]
    simp [partOf, Part.marks]

theorem takeWhile_lineFeed (text : List Char) :
    text.takeWhile (· ≠ '\n') = text.takeWhile (fun c => !Postgres.newline c) ++
      (text.drop (text.takeWhile fun c => !Postgres.newline c).length).takeWhile (· ≠ '\n') := by
  have hsplit := List.prefix_iff_eq_append.mp (List.takeWhile_prefix (l := text) fun c => !Postgres.newline c)
  have hfree : ∀ c ∈ text.takeWhile (fun c => !Postgres.newline c), decide (c ≠ '\n') = true := by
    intro c hc
    have := List.mem_takeWhile_imp hc
    refine decide_eq_true fun e => ?_
    subst e
    cases this
  rw [← List.takeWhile_append_of_pos hfree, hsplit]

theorem alike_line (ih : AlikeFrom fuel) (hfuel : rest.length ≤ fuel) (hnext : rest.head? = some '-')
    (hstep : inStep before (lexemes ('-' :: rest)) = true) :
    Alike (lexemes ('-' :: rest)) (partsFrom (fuel + 1) before count ('-' :: rest)) := by
  obtain ⟨later, rfl⟩ : ∃ later, rest = '-' :: later := by
    cases rest with
    | nil => cases hnext
    | cons c later =>
      cases hnext
      exact ⟨later, rfl⟩
  -- The tokenizer's comment, the rest of its line and what follows the line.
  generalize hcomment : later.takeWhile (fun c => !Postgres.newline c) = comment
  have hlex : lexAt '-' ('-' :: later) = ⟨.blank true, comment.length + 1⟩ := by
    rw [lexAt_line hnext, ← hcomment]
    rfl
  have hline := takeWhile_lineFeed later
  rw [hcomment] at hline
  have hpieces : lexemes ('-' :: '-' :: later) =
      (⟨.blank true, comment.length + 1⟩, '-' :: '-' :: later.take comment.length) :: lexemes (later.drop comment.length) := by
    rw [lexemes_cons, hlex]
    rfl
  rw [hpieces, inStep, Bool.and_eq_true] at hstep
  obtain ⟨line, after, hquiet⟩ := quiet_of_quietLine hstep.1
  rw [hquiet.lexemes] at hstep
  obtain ⟨before', hafter⟩ := inStep_append hstep.2
  have hdrop := hquiet.drop
  have hmarks := hquiet.marks
  generalize hrest : (later.drop comment.length).takeWhile (· ≠ '\n') = tail at hline hdrop hmarks
  have hturn : turn before '-' ('-' :: later) = .ok ⟨.copied, (comment ++ tail).length + 1⟩ := by
    rw [← hline]
    rfl
  have htaken : later.take (comment ++ tail).length = comment ++ tail := by
    rw [← hline]
    exact (List.prefix_iff_eq_take.mp (List.takeWhile_prefix _)).symm
  have hleft : later.drop (comment ++ tail).length = after := by
    rw [hdrop, List.drop_drop, List.length_append]
  have hcommentTaken : later.take comment.length = comment := by
    rw [← hcomment]
    exact (List.prefix_iff_eq_take.mp (List.takeWhile_prefix _)).symm
  have hle : after.length ≤ fuel := by
    rw [← hleft, List.length_drop]
    simp only [List.length_cons] at hfuel
    omega
  have hlater := ih ('-' :: '-' :: (comment ++ tail)).getLast? count after hle (inStep_lineEnd hquiet.lineEnd hafter)
  rw [partsFrom_ok hturn, List.take_succ_cons, List.drop_succ_cons, htaken, hleft, hpieces, hquiet.lexemes, hcommentTaken,
    ← List.cons_append]
  apply hlater.past _ [_]
  · intro x hx
    rcases List.mem_cons.mp hx with rfl | hx
    · rfl
    · exact hquiet.closed x hx
  · have hblank : (⟨.blank true, comment.length + 1⟩ : Scan.Piece Lexeme).kind ≠ .punct '?' := fun e => nomatch e
    rw [List.cons_append, loneMarks_of_ne hblank, loneMarks_append (apart_of_atLineEnd hquiet.lineEnd), hmarks]
    simp only [partOf, Part.marks, List.flatMap_cons, List.flatMap_nil, List.append_nil, List.map_cons, List.map_append,
      List.cons_append, List.append_assoc]

theorem alike_mark (ih : AlikeFrom fuel) (hfuel : rest.length ≤ fuel) (hstep : inStep before (lexemes ('?' :: rest)) = true) :
    Alike (lexemes ('?' :: rest)) (partsFrom (fuel + 1) before count ('?' :: rest)) := by
  have hlex : ∀ later, lexAt '?' later = ⟨.punct '?', 0⟩ := fun later =>
    lexAt_single (single_of_not_start rfl rfl (by decide) (fun e => absurd e (by decide)))
  by_cases hnext : rest.head? = some '?' ∨ rest.head? = some '|' ∨ rest.head? = some '&'
  · have hturn : turn before '?' rest = .ok ⟨.copied, 1⟩ := by
      simp [turn, hnext, show isWordStart '?' = false from rfl]
    cases rest with
    | nil => simp at hnext
    | cons c later =>
      simp only [List.head?_cons, Option.some.injEq] at hnext
      have hsecond : lexAt c later = ⟨.punct c, 0⟩ := by
        rcases hnext with rfl | rfl | rfl
        · exact hlex later
        · exact lexAt_single (single_of_not_start rfl rfl (by decide) (fun e => absurd e (by decide)))
        · exact lexAt_single (single_of_not_start rfl rfl (by decide) (fun e => absurd e (by decide)))
      have hpieces : lexemes ('?' :: c :: later) = [(⟨.punct '?', 0⟩, ['?']), (⟨.punct c, 0⟩, [c])] ++ lexemes later := by
        rw [lexemes_cons, hlex, List.drop_zero, lexemes_cons, hsecond]
        rfl
      rw [hpieces] at hstep ⊢
      simp only [List.cons_append, List.nil_append, inStep, Bool.and_eq_true] at hstep
      rw [partsFrom_ok hturn]
      have hlater := ih (some c) count later (by rw [List.length_cons] at hfuel; omega) hstep.2.2
      apply hlater.past _ [_]
      · simp [Lexeme.closed]
      · have hends : endsOperator (.punct c) = true := by
          rcases hnext with rfl | rfl | rfl <;> rfl
        simp [loneMarks, hends, partOf, Part.marks]
  · have hturn : turn before '?' rest = .ok ⟨.placeholder, 0⟩ := by
      simp only [turn, show isWordStart '?' = false from rfl, hnext]
      rfl
    rw [lexemes_cons, hlex] at hstep ⊢
    rw [inStep, Bool.and_eq_true] at hstep
    rw [partsFrom_ok hturn]
    have hlater := ih (some '?') (count + 1) rest hfuel hstep.2
    apply hlater.past [_] [_]
    · simp [Lexeme.closed]
    · exact loneMarks_lone (apart_of_head hnext) 0

theorem alike_escape (ih : ∀ n ≤ fuel, AlikeFrom n) (hfuel : rest.length ≤ fuel) (hdigit : before.any Char.isDigit = true)
    (hletter : char = 'E' ∨ char = 'e') (hquote : rest.head? = some '\'')
    (hstep : inStep before (lexemes (char :: rest)) = true) :
    Alike (lexemes (char :: rest)) (partsFrom (fuel + 1) before count (char :: rest)) := by
  obtain ⟨body, rfl⟩ : ∃ body, rest = '\'' :: body := by
    cases rest with
    | nil => cases hquote
    | cons c body =>
      cases hquote
      exact ⟨body, rfl⟩
  -- The word `E` and the string behind it are one token of the tokenizer and two turns.
  have hfirst : turn before char ('\'' :: body) = .ok ⟨.copied, 0⟩ := by
    have hpart : isWordPart '\'' = false := rfl
    rcases hletter with rfl | rfl
    · simp [turn, hdigit, hpart, show isWordStart 'E' = true from rfl]
    · simp [turn, hdigit, hpart, show isWordStart 'e' = true from rfl]
  have hsecond : turn (some char) '\'' body = copyTo 0 (scanQuoted '\'' false body) (unterminatedQuoted '\'') := rfl
  have hpieces := lexemes_cons char ('\'' :: body)
  rw [lexAt_escape hletter, Nat.add_comm, List.take_succ_cons, List.drop_succ_cons] at hpieces
  rw [hpieces, inStep, Bool.and_eq_true] at hstep
  have hends : endsAlike body = true := by
    have htame := hstep.1
    have hwhole : body.take (quotedBody '\'' true body).size ++ textOf (lexemes (body.drop (quotedBody '\'' true body).size)) =
        body := by
      rw [textOf, lexemes_text, List.take_append_drop]
    rcases hletter with rfl | rfl
    · simpa [tame, hwhole, hdigit] using htame
    · simpa [tame, hwhole, hdigit] using htame
  simp only [endsAlike, Bool.and_eq_true, decide_eq_true_eq] at hends
  rw [scanQuoted_eq, ← hends.1, ← hends.2] at hsecond
  obtain ⟨n, rfl⟩ : ∃ n, fuel = n + 1 := Nat.exists_eq_add_one.mpr (by rw [List.length_cons] at hfuel; omega)
  rw [partsFrom_ok hfirst, List.take_zero, List.drop_zero, List.getLast?_singleton]
  cases hclosed : (quotedBody '\'' true body).closed with
  | false =>
    rw [hclosed, if_neg Bool.false_ne_true] at hsecond
    rw [partsFrom_error hsecond, hpieces]
    apply Alike.refused
    exact ⟨_, List.mem_cons_self, hclosed⟩
  | true =>
    rw [hclosed, if_pos rfl] at hsecond
    generalize hsize : (quotedBody '\'' true body).size = size at hsecond hpieces hstep
    have hsecond : turn (some char) '\'' body = .ok ⟨.copied, size⟩ := by
      rw [hsecond, copyTo, Nat.zero_add]
    have hle : (body.drop size).length ≤ n := by
      rw [List.length_drop]
      simp only [List.length_cons] at hfuel
      omega
    have hlast := hstep.2
    rw [List.getLast?_cons_cons] at hlast
    have hlater := ih n (Nat.le_succ n) ('\'' :: body.take size).getLast? count (body.drop size) hle hlast
    have hparts : ∀ (result : Except String (List Part)) (first second : Part),
        (result.map ([second] ++ ·)).map ([first] ++ ·) = result.map ([first, second] ++ ·) := by
      intro result first second
      cases result <;> rfl
    rw [partsFrom_ok hsecond, hpieces, hparts]
    apply hlater.past [_] [_, _]
    · intro x hx
      obtain rfl := List.mem_singleton.mp hx
      exact hclosed
    · have hstring : ∀ closed more, (⟨.string none closed, more⟩ : Scan.Piece Lexeme).kind ≠ .punct '?' :=
        fun _ _ e => nomatch e
      rw [List.singleton_append, loneMarks_of_ne (hstring _ _)]
      simp [partOf, Part.marks]

theorem partsFrom_alike (fuel : Nat) : AlikeFrom fuel := by
  induction fuel using Nat.strongRecOn with
  | ind fuel ih =>
    intro before count text hfuel hstep
    cases fuel with
    | zero =>
      obtain rfl := List.length_eq_zero_iff.mp (Nat.le_zero.mp hfuel)
      exact alike_nil
    | succ fuel =>
      cases text with
      | nil => exact alike_nil
      | cons char rest =>
        have hle : rest.length ≤ fuel := Nat.le_of_succ_le_succ hfuel
        have ih : ∀ n ≤ fuel, AlikeFrom n := fun n hn => ih n (Nat.lt_succ_of_le hn)
        cases turned before char rest with
        | same hturn hclosed hkind => exact alike_same (ih fuel (Nat.le_refl _)) hle hstep hturn hclosed hkind
        | refused message hturn hopen =>
          rw [partsFrom_error hturn]
          apply Alike.refused
          rw [lexemes_cons]
          exact ⟨_, List.mem_cons_self, hopen⟩
        | line hdash hnext =>
          subst hdash
          exact alike_line (ih fuel (Nat.le_refl _)) hle hnext hstep
        | mark hmark =>
          subst hmark
          exact alike_mark (ih fuel (Nat.le_refl _)) hle hstep
        | escape hdigit hletter hquote => exact alike_escape ih hle hdigit hletter hquote hstep

/-! ## What every rewriting keeps -/

theorem turn_placeholder {p : Scan.Piece Kind} (h : turn before char rest = .ok p) (hkind : p.kind = .placeholder) :
    char = '?' ∧ p.more = 0 := by
  have hcopied : ∀ {lead : Nat} {found : Option Nat} {message : String}, copyTo lead found message = .ok p →
      p.kind = .copied := by
    intro lead found message h
    cases found with
    | none => cases h
    | some size =>
      cases h
      rfl
  unfold turn at h
  dsimp only at h
  repeat' split at h
  all_goals first
    | exact absurd (hkind.symm.trans (hcopied h)) (by decide)
    | cases h
  all_goals first
    | exact ⟨‹char = '?'›, rfl⟩
    | cases hkind

theorem partsFrom_some (h : partsFrom (fuel + 1) before count (char :: rest) = .ok parts) :
    ∃ p later, turn before char rest = .ok p ∧
      partsFrom fuel (char :: rest.take p.more).getLast? (counted count p.kind) (rest.drop p.more) = .ok later ∧
      parts = partOf count (char :: rest.take p.more) p.kind :: later := by
  cases hturn : turn before char rest with
  | error message =>
    rw [partsFrom_error hturn] at h
    cases h
  | ok p =>
    rw [partsFrom_ok hturn] at h
    cases hlater : partsFrom fuel (char :: rest.take p.more).getLast? (counted count p.kind) (rest.drop p.more) with
    | error message =>
      rw [hlater] at h
      cases h
    | ok later =>
      rw [hlater] at h
      cases h
      exact ⟨p, later, rfl, hlater, rfl⟩

theorem partsFrom_original (hfuel : text.length ≤ fuel) (h : partsFrom fuel before count text = .ok parts) :
    parts.flatMap Part.original = text := by
  induction fuel generalizing before count text parts with
  | zero =>
    obtain rfl := List.length_eq_zero_iff.mp (Nat.le_zero.mp hfuel)
    cases h
    rfl
  | succ fuel ih =>
    cases text with
    | nil =>
      cases h
      rfl
    | cons char rest =>
      obtain ⟨p, later, hturn, hlater, rfl⟩ := partsFrom_some h
      have hle : (rest.drop p.more).length ≤ fuel := by
        rw [List.length_cons] at hfuel
        rw [List.length_drop]
        omega
      rw [List.flatMap_cons, ih hle hlater]
      cases hkind : p.kind with
      | copied => simp [partOf, Part.original]
      | placeholder =>
        obtain ⟨rfl, hmore⟩ := turn_placeholder hturn hkind
        simp [partOf, Part.original, hmore]

theorem partsFrom_numbers (h : partsFrom fuel before count text = .ok parts) :
    parts.filterMap Part.number = List.range' (count + 1) (parts.countP isPlaceholder) := by
  induction fuel generalizing before count text parts with
  | zero =>
    cases h
    rfl
  | succ fuel ih =>
    cases text with
    | nil =>
      cases h
      rfl
    | cons char rest =>
      obtain ⟨p, later, hturn, hlater, rfl⟩ := partsFrom_some h
      have hih := ih hlater
      cases hkind : p.kind with
      | copied =>
        rw [hkind] at hih
        simpa only [partOf, counted, List.filterMap_cons, Part.number, List.countP_cons, isPlaceholder,
          Bool.false_eq_true, if_false, Nat.add_zero] using hih
      | placeholder =>
        rw [hkind] at hih
        simp only [partOf, List.filterMap_cons, Part.number, hih, counted, isPlaceholder, List.countP_cons, if_true,
          List.range'_succ]

end Whole

/-! ## The two scanners -/

/-- They agree on every text that keeps them in step. -/
theorem agrees_of_inStep {sql : List Char} (h : inStep none (lexemes sql) = true) : Agrees sql := by
  have halike := partsFrom_alike sql.length none 0 sql (Nat.le_refl _) h
  constructor
  · have hthrows : (∃ message, rewritePlaceholders sql = .error message) ↔
        ∃ message, partsFrom sql.length none 0 sql = .error message := by
      rw [rewritePlaceholders]
      cases partsFrom sql.length none 0 sql <;> simp [bind, Except.bind]
    rw [hthrows, halike.throws, lexSql, lexFrom_unterminated]
    simp
  · intro rewritten hrewritten
    cases hparts : partsFrom sql.length none 0 sql with
    | error message =>
      rw [rewritePlaceholders, hparts] at hrewritten
      cases hrewritten
    | ok parts =>
      rw [rewritePlaceholders, hparts] at hrewritten
      cases hrewritten
      exact ⟨parts, rfl, partsFrom_original (Nat.le_refl _) hparts, partsFrom_numbers hparts, halike.marks parts hparts⟩

theorem agrees_on_a_commented_line : Agrees "select ? -- why?\r\nwhere a ?? e'\\'?'".toList :=
  agrees_of_inStep (by decide)

/-- The tokenizer ends the comment at the carriage return and reads a lone `?` behind it; the scanner copies it. -/
theorem a_carriage_return_hides_a_placeholder : ¬Agrees "select 1 -- all\rwhere id = ?".toList := by
  intro h
  generalize hsql : "select 1 -- all\rwhere id = ?".toList = sql at h
  have hrewritten : rewritePlaceholders sql = .ok ⟨sql, 0⟩ := by
    subst hsql
    decide
  obtain ⟨parts, hparts⟩ := h.rewrites _ hrewritten
  have hlone : true ∈ loneMarks (lexemes sql) := by
    subst hsql
    decide
  rw [← hparts.marks, List.mem_flatMap] at hlone
  obtain ⟨part, hmem, hmark⟩ := hlone
  cases part with
  | copied text => simp [Part.marks] at hmark
  | placeholder number =>
    have hnumber : number ∈ parts.filterMap Part.number := List.mem_filterMap.mpr ⟨_, hmem, rfl⟩
    rw [hparts.numbers] at hnumber
    cases hnumber

end Fabrika.Platform.Placeholders
