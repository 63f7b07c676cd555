/-
  Fabrika.Platform.MigrationSqlProofs — the tokenizer reads a text as Postgres' scanner does
  exactly where the scanner meets no continued constant and no constant that `B`, `X` or `U&`
  introduces (see `Fabrika.Platform.PostgresScan`).

  Each token of the scanner is one turn of the tokenizer's loop or several, of the same class
  (`token_reads`); a number is the case of several turns. At the first token of the other kind the
  two part within that token (`token_parts`).
-/

import Fabrika.Platform.MigrationSql
import Fabrika.Platform.PostgresScan
import Mathlib

namespace Fabrika.Platform.MigrationSql

open Fabrika.Lib Fabrika.Platform
open Fabrika.Platform.Postgres (identCont identStart trailingJunk dolqCont)

/-! ## What is compared -/

def Lexeme.cls : Lexeme → Postgres.Class
  | .blank _ => .blank
  | .word _ | .punct _ => .code
  | .quoted _ _ => .quoted
  | .string _ _ => .string
  | .dollar _ _ => .dollar

/-- The class the tokenizer reads each character as. -/
def classes (text : List Char) : List Postgres.Class := Scan.marks lexRule Lexeme.cls text

/-- The tokens with the offsets they start at. -/
def placed : Nat → Nat → Lexemes → List (Nat × SqlToken)
  | _, _, [] => []
  | offset, line, (piece, text) :: later =>
    ((piece.kind.token line).toList.map fun token => (offset, token)) ++
      placed (offset + text.length) (line + text.count '\n') later

def placedTokens (text : List Char) : List (Nat × SqlToken) := placed 0 1 (lexemes text)

/-- The offsets of the tokens `statementsOf` ends a statement at. -/
def statementEnds (text : List Char) : List Nat := ((placedTokens text).filter (·.2.isSemicolon)).map (·.1)

/-- The statements of the tokens when one ends at each of these offsets. -/
def cutAt (offsets : List Nat) (tokens : List (Nat × SqlToken)) : List Statement :=
  (tokens.splitOnP fun token => offsets.contains token.1).flatMap fun block => closeStatement (block.map (·.2))

/-- Up to where Postgres' scanner refuses the text, the tokenizer divides it as the scanner does. -/
structure ReadsAsPostgres (text : List Char) : Prop where
  classes : Postgres.classes text <+: classes text
  unterminated : Postgres.readsAll text → ((lexSql text).unterminated.isSome ↔ Postgres.unterminated text)
  ends : (statementEnds text).filter (· < (Postgres.classes text).length) = Postgres.semicolons text
  statements : Postgres.readsAll text →
    statementsOf (lexSql text).tokens = cutAt (Postgres.semicolons text) (placedTokens text)

/-! ## Characters -/

theorem isDigit_iff (c : Char) : c.isDigit = true ↔ 48 ≤ c.toNat ∧ c.toNat ≤ 57 := by
  simp only [Char.isDigit, ge_iff_le, Bool.and_eq_true, decide_eq_true_eq, UInt32.le_iff_toNat_le]
  exact Iff.rfl

theorem isAlpha_iff (c : Char) :
    c.isAlpha = true ↔ (65 ≤ c.toNat ∧ c.toNat ≤ 90) ∨ (97 ≤ c.toNat ∧ c.toNat ≤ 122) := by
  simp only [Char.isAlpha, Char.isUpper, Char.isLower, ge_iff_le, Bool.or_eq_true, Bool.and_eq_true, decide_eq_true_eq,
    UInt32.le_iff_toNat_le]
  exact Iff.rfl

theorem isSpace_eq (c : Char) : isSpace c = Postgres.space c := by
  simp only [isSpace, Postgres.space, Postgres.newline, List.contains_eq_mem, List.mem_cons, List.not_mem_nil, or_false]
  grind

theorem isWordStart_eq (c : Char) : isWordStart c = identStart c := rfl

theorem isWordPart_eq (c : Char) : isWordPart c = identCont c := by
  simp only [isWordPart, identCont, identStart, Char.isAlphanum]
  grind

theorem isTagPart_eq (c : Char) : isTagPart c = dolqCont c := by
  simp only [isTagPart, dolqCont, identStart, Char.isAlphanum]
  grind

theorem dollarTagAt_eq (text : List Char) : dollarTagAt text = Postgres.delimiter text := by
  have hpart : isTagPart = dolqCont := funext isTagPart_eq
  unfold dollarTagAt Postgres.delimiter
  exact hpart ▸ rfl

theorem not_identStart_of_isDigit {c : Char} (h : c.isDigit = true) : identStart c = false := by
  have hd := (isDigit_iff c).mp h
  have hu : c ≠ '_' := by
    intro e
    subst e
    exact absurd hd (by decide)
  simp only [identStart, Bool.or_eq_false_iff, decide_eq_false_iff_not]
  refine ⟨⟨?_, hu⟩, by omega⟩
  rw [Bool.eq_false_iff]
  intro ha
  have := (isAlpha_iff c).mp ha
  omega

/-! ## One turn of the loop -/

section Turns

variable {c : Char} {rest : List Char}

theorem lexAt_space (h : Postgres.space c = true) : lexAt c rest = ⟨.blank true, 0⟩ := by
  simp only [lexAt, isSpace_eq, h, if_true]

theorem lexAt_line (h : rest.head? = some '-') :
    lexAt '-' rest = ⟨.blank true, (rest.takeWhile fun c => !Postgres.newline c).length⟩ := by
  obtain ⟨rest, rfl⟩ : ∃ later, rest = '-' :: later := by
    cases rest with
    | nil => simp at h
    | cons d later => exact ⟨later, by simpa using h⟩
  have hline : (fun c => c ≠ '\n' && c ≠ '\r' : Char → Bool) = fun c => !Postgres.newline c := by
    funext c
    simp [Postgres.newline]
  have hdash : Postgres.newline '-' = false := rfl
  simp only [lexAt, isSpace_eq, show Postgres.space '-' = false from rfl, Bool.false_eq_true, if_false, List.head?_cons,
    and_self, if_true, List.tail_cons, List.takeWhile_cons, hdash, Bool.not_false, List.length_cons, hline]
  rw [Nat.add_comm]

theorem lexAt_block (h : rest.head? = some '*') :
    lexAt '/' rest = ⟨.blank ((blockComment 0 ('/' :: rest)).2 = 0), (blockComment 0 ('/' :: rest)).1 - 1⟩ := by
  simp [lexAt, isSpace_eq, show Postgres.space '/' = false from rfl, h]

theorem lexAt_string : lexAt '\'' rest =
    ⟨.string (some (quotedBody '\'' false rest).text) (quotedBody '\'' false rest).closed,
      (quotedBody '\'' false rest).size⟩ := by
  simp [lexAt, isSpace_eq, show Postgres.space '\'' = false from rfl]

theorem lexAt_escape (h : c = 'E' ∨ c = 'e') : lexAt c ('\'' :: rest) =
    ⟨.string none (quotedBody '\'' true rest).closed, 1 + (quotedBody '\'' true rest).size⟩ := by
  rcases h with rfl | rfl
  · simp [lexAt, isSpace_eq, show Postgres.space 'E' = false from rfl]
  · simp [lexAt, isSpace_eq, show Postgres.space 'e' = false from rfl]

theorem lexAt_quoted : lexAt '"' rest =
    ⟨.quoted (quotedBody '"' false rest).text (quotedBody '"' false rest).closed, (quotedBody '"' false rest).size⟩ := by
  simp [lexAt, isSpace_eq, show Postgres.space '"' = false from rfl]

theorem lexAt_tag_closed {tag : List Char} {stop : Nat} (h : Postgres.delimiter ('$' :: rest) = some tag)
    (hstop : indexOf tag (rest.drop (tag.length - 1)) = some stop) :
    lexAt '$' rest = ⟨.dollar ((rest.drop (tag.length - 1)).take stop) true, tag.length - 1 + (stop + tag.length)⟩ := by
  simp [lexAt, isSpace_eq, show Postgres.space '$' = false from rfl, dollarTagAt_eq, h, hstop]

theorem lexAt_tag_open {tag : List Char} (h : Postgres.delimiter ('$' :: rest) = some tag)
    (hstop : indexOf tag (rest.drop (tag.length - 1)) = none) :
    lexAt '$' rest = ⟨.dollar (rest.drop (tag.length - 1)) false, rest.length⟩ := by
  simp [lexAt, isSpace_eq, show Postgres.space '$' = false from rfl, dollarTagAt_eq, h, hstop]

theorem lexAt_word (h : identStart c = true) (hplain : (c = 'E' ∨ c = 'e') → rest.head? ≠ some '\'') :
    lexAt c rest = ⟨.word (c :: rest.takeWhile identCont), (rest.takeWhile identCont).length⟩ := by
  have hne : ∀ d, identStart d = false → c ≠ d := by
    intro d hd e
    subst e
    exact absurd (h.symm.trans hd) (by decide)
  have hspace : Postgres.space c = false := by
    simp [Postgres.space, Postgres.newline, hne ' ' rfl, hne '\t' rfl, hne '\n' rfl, hne '\r' rfl, hne '\x0c' rfl,
      hne '\x0b' rfl]
  have hpart : isWordPart = identCont := funext isWordPart_eq
  have hquote : ¬(c = '\'' ∨ (c = 'E' ∨ c = 'e') ∧ rest.head? = some '\'') := by
    intro e
    rcases e with e | ⟨e, e'⟩
    · exact hne '\'' rfl e
    · exact hplain e e'
  simp only [lexAt, isSpace_eq, hspace, Bool.false_eq_true, if_false, hne '-' rfl, hne '/' rfl, hne '"' rfl, hne '$' rfl,
    false_and, hquote, isWordStart_eq, h, if_true, hpart]

/-- A character that begins nothing longer. -/
structure Single (c : Char) (rest : List Char) : Prop where
  space : Postgres.space c = false
  start : identStart c = false
  quotes : c ≠ '\'' ∧ c ≠ '"'
  line : c = '-' → rest.head? ≠ some '-'
  block : c = '/' → rest.head? ≠ some '*'
  tag : c = '$' → Postgres.delimiter ('$' :: rest) = none

theorem lexAt_single (h : Single c rest) : lexAt c rest = ⟨.punct c, 0⟩ := by
  have hline : ¬(c = '-' ∧ rest.head? = some '-') := fun e => h.line e.1 e.2
  have hblock : ¬(c = '/' ∧ rest.head? = some '*') := fun e => h.block e.1 e.2
  have hletter : c ≠ 'E' ∧ c ≠ 'e' := by
    constructor
    all_goals
      intro e
      have hs := h.start
      rw [e] at hs
      exact absurd hs (by decide)
  have htag : (if c = '$' then dollarTagAt (c :: rest) else none) = none := by
    split
    · next e =>
      subst e
      rw [dollarTagAt_eq]
      exact h.tag rfl
    · rfl
  simp only [lexAt, isSpace_eq, h.space, Bool.false_eq_true, if_false, hline, hblock, h.quotes.1, h.quotes.2, hletter.1,
    hletter.2, false_and, or_self, htag, isWordStart_eq, h.start]

/-- A punctuation token is the character the loop stands on. -/
theorem lexAt_punct {x : Char} (h : (lexAt c rest).kind = .punct x) : x = c ∧ (lexAt c rest).more = 0 := by
  generalize hpiece : lexAt c rest = piece at h ⊢
  unfold lexAt at hpiece
  dsimp only at hpiece
  repeat' split at hpiece
  all_goals
    subst hpiece
    first
    | exact ⟨(Lexeme.punct.inj h).symm, rfl⟩
    | cases h

end Turns

/-! ## Bodies -/

/-- What the tokenizer takes of a text and whether it closes there, by where the scanner finds the end. -/
structure Ends (stop : Option Nat) (text : List Char) (taken : Nat) (shut : Bool) : Prop where
  size : taken = stop.getD text.length
  closed : shut = stop.isSome
  le : taken ≤ text.length

theorem Ends.none (text : List Char) : Ends .none text text.length false := ⟨rfl, rfl, Nat.le_refl _⟩

variable {introducer : Postgres.Introducer} {tag : List Char}

theorem Ends.past {stop : Option Nat} {text : List Char} {size : Nat} {closed : Bool} (h : Ends stop text size closed)
    (read : List Char) :
    Ends (stop.map (· + read.length)) (read ++ text) (read.length + size) closed := by
  obtain ⟨hsize, hclosed, hle⟩ := h
  refine ⟨?_, by simpa using hclosed, by simpa using hle⟩
  cases stop with
  | none => simpa using hsize
  | some stop =>
    simp only [Option.getD_some, Option.map_some] at hsize ⊢
    omega

theorem blockComment_ends (depth : Nat) (text : List Char) :
    Ends (Postgres.commentEnd depth text) text (blockComment (depth + 1) text).1 ((blockComment (depth + 1) text).2 = 0) := by
  fun_induction Postgres.commentEnd depth text with
  | case1 => exact ⟨rfl, rfl, Nat.le_refl _⟩
  | case2 depth rest ih =>
    have h := ih.past ['/', '*']
    simp only [blockComment, and_self, if_true]
    exact Nat.add_comm 2 _ ▸ h
  | case3 rest => exact ⟨rfl, rfl, by simp [blockComment]⟩
  | case4 depth rest ih =>
    have h := ih.past ['*', '/']
    have hne : ¬('*' = '/' ∧ '/' = '*') := by decide
    simp only [blockComment, hne, if_false, and_self, if_true, Nat.add_sub_cancel, Nat.add_one_ne_zero]
    exact Nat.add_comm 2 _ ▸ h
  | case5 depth c rest h1 h2 h3 ih =>
    have h := ih.past [c]
    cases rest with
    | nil => exact ⟨rfl, rfl, by simp [blockComment]⟩
    | cons d rest =>
      have hopen : ¬(c = '/' ∧ d = '*') := by
        rintro ⟨rfl, rfl⟩
        exact h1 rest rfl rfl
      have hclose : ¬(c = '*' ∧ d = '/') := by
        rintro ⟨rfl, rfl⟩
        cases depth with
        | zero => exact h2 rest rfl rfl rfl
        | succ depth => exact h3 depth rest rfl rfl rfl
      simp only [blockComment, hopen, hclose, if_false]
      exact Nat.add_comm 1 _ ▸ h

theorem identifierEnd_ends (text : List Char) :
    Ends (Postgres.identifierEnd text) text (quotedBody '"' false text).size (quotedBody '"' false text).closed := by
  fun_induction Postgres.identifierEnd text with
  | case1 => exact ⟨rfl, rfl, Nat.le_refl _⟩
  | case2 rest ih =>
    have h := ih.past ['"', '"']
    simp only [quotedBody, Bool.false_and, Bool.false_eq_true, if_false, decide_true, Bool.and_self, if_true, Body.after]
    exact h
  | case3 rest hne =>
    cases rest with
    | nil => exact ⟨rfl, rfl, by simp [quotedBody]⟩
    | cons d rest =>
      have hd : d ≠ '"' := fun e => hne rest (e ▸ rfl)
      simp only [quotedBody, Bool.false_and, Bool.false_eq_true, if_false, decide_true, hd, decide_false, Bool.and_false,
        if_true]
      exact ⟨rfl, rfl, by simp⟩
  | case4 c rest _ hc ih =>
    have h := ih.past [c]
    have hc : c ≠ '"' := fun e => hc e
    cases rest with
    | nil => simpa [quotedBody, hc, Postgres.identifierEnd] using Ends.none [c]
    | cons d rest =>
      simp only [quotedBody, Bool.false_and, Bool.false_eq_true, if_false, hc, decide_false, Body.after]
      exact h

/-- One piece of a constant without an introducer or behind `E`. -/
theorem pieceEnd_ends (hbits : introducer ≠ .bits) (text : List Char) :
    Ends (Postgres.pieceEnd introducer text) text (quotedBody '\'' (introducer = .escape) text).size
      (quotedBody '\'' (introducer = .escape) text).closed := by
  fun_induction Postgres.pieceEnd introducer text with
  | case1 => exact ⟨rfl, rfl, Nat.le_refl _⟩
  | case2 c rest hescape ih =>
    have h := ih.past ['\\', c]
    simp only [quotedBody, hescape, decide_true, Bool.and_self, if_true, Body.after] at h ⊢
    exact h
  | case3 c rest hescape ih =>
    have h := ih.past ['\\']
    have hquote : ('\\' : Char) ≠ '\'' := by decide
    simp only [quotedBody, hescape, decide_false, Bool.false_and, Bool.false_eq_true, if_false, hquote, Body.after] at h ⊢
    exact h
  | case4 rest hb => exact absurd hb hbits
  | case5 rest _ ih =>
    have h := ih.past ['\'', '\'']
    have hslash : ('\'' : Char) ≠ '\\' := by decide
    simp only [quotedBody, hslash, decide_false, Bool.and_false, Bool.false_eq_true, if_false, decide_true, Bool.and_self,
      if_true, Body.after] at h ⊢
    exact h
  | case6 rest hne =>
    have hslash : ('\'' : Char) ≠ '\\' := by decide
    cases rest with
    | nil =>
      simp only [quotedBody, hslash, decide_false, Bool.and_false, Bool.false_eq_true, if_false, if_true]
      exact ⟨rfl, rfl, by simp⟩
    | cons d rest =>
      have hd : d ≠ '\'' := fun e => hne rest (e ▸ rfl)
      simp only [quotedBody, hslash, decide_false, Bool.and_false, Bool.false_eq_true, if_false, decide_true, hd, if_true]
      exact ⟨rfl, rfl, by simp⟩
  | case7 c rest hslash _ hquote ih =>
    have h := ih.past [c]
    have hquote : c ≠ '\'' := fun e => hquote e
    cases rest with
    | nil =>
      by_cases hc : c = '\\'
      · subst hc
        cases introducer with
        | escape => exact ⟨rfl, rfl, by simp [quotedBody]⟩
        | _ => exact ⟨rfl, rfl, by simp [quotedBody]⟩
      · simpa [quotedBody, hquote, hc, Postgres.pieceEnd] using Ends.none [c]
    | cons d rest =>
      have hslash : c ≠ '\\' := fun e => hslash d rest e rfl
      simp only [quotedBody, hslash, decide_false, Bool.and_false, Bool.false_eq_true, if_false, hquote, Bool.false_and,
        Body.after] at h ⊢
      exact h

/-! ## Dollar quotes -/

/-- What a delimiter is made of. -/
inductive Tag : List Char → Prop
  | empty : Tag ['$', '$']
  | named {first : Char} {more : List Char} : identStart first = true → (∀ c ∈ more, dolqCont c = true) →
      Tag ('$' :: first :: more ++ ['$'])

theorem delimiter_some {text : List Char} (h : Postgres.delimiter text = some tag) : Tag tag ∧ tag <+: text := by
  unfold Postgres.delimiter at h
  split at h
  · next rest =>
    dsimp only at h
    split at h
    · next later hdrop =>
      cases h
      cases rest with
      | nil => simp at hdrop
      | cons first more =>
        dsimp only at hdrop ⊢
        by_cases hfirst : identStart first = true
        · simp only [hfirst, if_true] at hdrop ⊢
          refine ⟨.named hfirst (fun c hc => List.mem_takeWhile_imp hc), later, ?_⟩
          have hmore := List.prefix_iff_eq_append.mp (List.takeWhile_prefix (l := more) dolqCont)
          rw [List.length_cons, List.drop_succ_cons] at hdrop
          rw [hdrop] at hmore
          simp only [List.cons_append, List.append_assoc, List.nil_append, hmore]
        · simp only [hfirst, Bool.false_eq_true, if_false, List.length_nil, List.drop_zero] at hdrop ⊢
          exact ⟨.empty, later, by simp [hdrop]⟩
    · cases h
  · cases h

theorem delimiter_append (h : Tag tag) (later : List Char) : Postgres.delimiter (tag ++ later) = some tag := by
  cases h with
  | empty => simp [Postgres.delimiter, show identStart '$' = false from rfl]
  | @named first more hfirst hmore =>
    have htake : (more ++ '$' :: later).takeWhile dolqCont = more := by
      rw [List.takeWhile_append_of_pos hmore, List.takeWhile_cons]
      simp [show dolqCont '$' = false from rfl]
    simp [Postgres.delimiter, hfirst, htake]

theorem Tag.length_pos (h : Tag tag) : 2 ≤ tag.length := by
  cases h <;> simp

theorem dollarEnd_eq (h : Tag tag) (text : List Char) :
    Postgres.dollarEnd tag text = (indexOf tag text).map (· + tag.length) := by
  have hpos := h.length_pos
  induction text with
  | nil =>
    have hne : tag.isEmpty = false := by
      cases tag with
      | nil => simp at hpos
      | cons _ _ => rfl
    simp [Postgres.dollarEnd, indexOf, hne]
  | cons c rest ih =>
    have hiff : Postgres.delimiter (c :: rest) = some tag ↔ tag.isPrefixOf (c :: rest) = true := by
      rw [List.isPrefixOf_iff_prefix]
      constructor
      · intro hd
        exact (delimiter_some hd).2
      · rintro ⟨later, hlater⟩
        rw [← hlater]
        exact delimiter_append h later
    simp only [Postgres.dollarEnd, indexOf]
    by_cases hd : Postgres.delimiter (c :: rest) = some tag
    · rw [if_pos hd, if_pos (hiff.mp hd)]
      simp
    · rw [if_neg hd, if_neg (fun e => hd (hiff.mpr e)), ih, Option.map_map, Option.map_map]
      congr 1
      funext n
      simp only [Function.comp]
      omega

theorem indexOf_le {part text : List Char} {stop : Nat} (h : indexOf part text = some stop) :
    stop + part.length ≤ text.length := by
  induction text generalizing stop with
  | nil =>
    simp only [indexOf] at h
    split at h
    · next he =>
      cases h
      simp [List.isEmpty_iff.mp he]
    · cases h
  | cons c rest ih =>
    simp only [indexOf] at h
    split at h
    · next hp =>
      cases h
      have := (List.isPrefixOf_iff_prefix.mp hp).length_le
      omega
    · obtain ⟨later, hlater, rfl⟩ := Option.map_eq_some_iff.mp h
      have := ih hlater
      simp only [List.length_cons]
      omega

/-! ## Numbers -/

/-- Turns of the loop that read code. -/
abbrev WalksCode (n : Nat) (text : List Char) : Prop :=
  Scan.Walks lexRule (fun k => k.cls = .code ∧ k.closed = true) n text

section Walks

variable {c : Char} {rest text : List Char} {n : Nat}

theorem walks_single (h : Single c rest) (hlater : WalksCode n rest) : WalksCode (n + 1) (c :: rest) := by
  have hstep : lexRule c rest = some ⟨.punct c, 0⟩ := congrArg some (lexAt_single h)
  have hwalk : WalksCode (0 + 1 + n) (c :: rest) := .step hstep (Nat.zero_le _) ⟨rfl, rfl⟩ (by simpa using hlater)
  rwa [Nat.add_comm] at hwalk

theorem walks_word (h : identStart c = true) (hplain : (c = 'E' ∨ c = 'e') → rest.head? ≠ some '\'')
    (hlater : WalksCode n (rest.drop (rest.takeWhile identCont).length)) :
    WalksCode ((rest.takeWhile identCont).length + 1 + n) (c :: rest) := by
  have hstep : lexRule c rest = some _ := congrArg some (lexAt_word h hplain)
  exact .step hstep (List.takeWhile_prefix _).length_le ⟨rfl, rfl⟩ hlater

/-- A character of a number outside its words: a digit, its point or the sign of its exponent. -/
theorem single_of_not_start (hstart : identStart c = false) (hspace : Postgres.space c = false)
    (hc : c ≠ '\'' ∧ c ≠ '"' ∧ c ≠ '$' ∧ c ≠ '/') (hsign : c = '-' → rest.head? ≠ some '-') : Single c rest where
  space := hspace
  start := hstart
  quotes := ⟨hc.1, hc.2.1⟩
  line := hsign
  block e := absurd e hc.2.2.2
  tag e := absurd e hc.2.2.1

theorem single_of_isDigit (h : c.isDigit = true) : Single c rest := by
  have hne : ∀ d : Char, d.isDigit = false → c ≠ d := by
    intro d hd e
    subst e
    exact absurd (h.symm.trans hd) (by decide)
  refine single_of_not_start (not_identStart_of_isDigit h) ?_ ⟨hne _ rfl, hne _ rfl, hne _ rfl, hne _ rfl⟩
    (fun e => absurd e (hne _ rfl))
  simp [Postgres.space, Postgres.newline, hne ' ' rfl, hne '\t' rfl, hne '\n' rfl, hne '\r' rfl, hne '\x0c' rfl,
    hne '\x0b' rfl]

theorem single_point : Single '.' rest :=
  single_of_not_start rfl rfl (by decide) (fun e => absurd e (by decide))

theorem single_sign {sign : Char} (h : sign = '+' ∨ sign = '-') (hnext : rest.head?.any Char.isDigit = true) :
    Single sign rest := by
  have hdash : rest.head? ≠ some '-' := by
    intro e
    rw [e] at hnext
    exact absurd hnext (by decide)
  rcases h with rfl | rfl
  · exact single_of_not_start rfl rfl (by decide) (fun e => absurd e (by decide))
  · exact single_of_not_start rfl rfl (by decide) (fun _ => hdash)

/-- What a number that is not hexadecimal, octal or binary is made of. -/
inductive Shaped : List Char → Prop
  | nil : Shaped []
  | digit {c : Char} {rest : List Char} : c.isDigit = true → Shaped rest → Shaped (c :: rest)
  | point {rest : List Char} : Shaped rest → Shaped ('.' :: rest)
  | sign {c d : Char} {rest : List Char} : c = '+' ∨ c = '-' → d.isDigit = true → Shaped (d :: rest) → Shaped (c :: d :: rest)
  | underscore {rest : List Char} : Shaped rest → Shaped ('_' :: rest)
  | exponent {c d : Char} {rest : List Char} : c = 'e' ∨ c = 'E' → Shaped (d :: rest) → Shaped (c :: d :: rest)

theorem Shaped.tail (h : Shaped (c :: rest)) : Shaped rest := by
  cases h with
  | digit _ h | point h | sign _ _ h | underscore h | exponent _ h => exact h

theorem Shaped.drop (h : Shaped text) (n : Nat) : Shaped (text.drop n) := by
  induction n generalizing text with
  | zero => exact h
  | succ n ih =>
    cases text with
    | nil => exact h
    | cons c rest => exact ih h.tail

theorem Shaped.head_ne (h : Shaped text) : text.head? ≠ some '\'' := by
  cases h with
  | nil => simp
  | digit hd _ =>
    intro e
    cases e
    exact absurd hd (by decide)
  | sign hs _ _ =>
    intro e
    cases e
    exact absurd hs (by decide)
  | exponent he _ =>
    intro e
    cases e
    exact absurd he (by decide)
  | point _ | underscore _ => simp

theorem within_word {word : List Char} (h : ∀ c ∈ word, identCont c = true) (later : List Char) :
    Postgres.within true (word ++ later) = Postgres.within true later := by
  induction word with
  | nil => rfl
  | cons c word ih =>
    simp only [List.mem_cons, forall_eq_or_imp] at h
    simp only [List.cons_append, Postgres.within, h.1, Bool.and_self, Bool.or_true]
    exact ih h.2

/-- A word inside a number ends with it or before it, when no identifier runs past the number. -/
theorem takeWhile_word {word : List Char} (hjunk : Postgres.within true (word ++ rest.take 1) = false ∨ rest = []) :
    (word ++ rest).takeWhile identCont = word.takeWhile identCont := by
  rw [List.takeWhile_append]
  split
  · next hlen =>
    have hall : word.takeWhile identCont = word := (List.takeWhile_prefix _).eq_of_length hlen
    have hcont : ∀ c ∈ word, identCont c = true := List.takeWhile_eq_self_iff.mp hall
    have hstop : rest.takeWhile identCont = [] := by
      cases rest with
      | nil => rfl
      | cons x rest =>
        rcases hjunk with hjunk | hjunk
        · rw [within_word hcont] at hjunk
          have hx : identCont x = false := by
            simp only [List.take_succ_cons, List.take_zero, Postgres.within, Bool.true_and, Bool.or_eq_false_iff] at hjunk
            exact hjunk.2
          simp [hx]
        · cases hjunk
    rw [hstop, hall, List.append_nil]
  · rfl

theorem within_mono {inside : Bool} (h : Postgres.within true text = false) : Postgres.within inside text = false := by
  induction text generalizing inside with
  | nil => exact absurd h (by simp [Postgres.within])
  | cons c rest ih =>
    simp only [Postgres.within, Bool.true_and] at h ⊢
    cases hstart : identStart c with
    | true => simpa [hstart] using h
    | false =>
      simp only [hstart, Bool.false_or] at h ⊢
      cases hcont : identCont c with
      | true =>
        rw [hcont] at h
        exact ih h
      | false => simpa [hcont] using h

theorem junk_iff {number : List Char} :
    trailingJunk number rest = false ↔ Postgres.within false (number ++ rest.take 1) = false ∨ rest = [] := by
  cases rest with
  | nil => simp [trailingJunk]
  | cons x rest => simp [trailingJunk]

theorem junk_past {number : List Char} (hstart : identStart c = false)
    (h : trailingJunk (c :: number) rest = false) : trailingJunk number rest = false := by
  rw [junk_iff] at h ⊢
  simpa [Postgres.within, hstart] using h

theorem junk_word {number : List Char} (hstart : identStart c = true)
    (h : trailingJunk (c :: number) rest = false) :
    Postgres.within true (number ++ rest.take 1) = false ∨ rest = [] := by
  rw [junk_iff] at h
  simpa [Postgres.within, hstart] using h

theorem junk_after_word {number : List Char} (h : Postgres.within true (number ++ rest.take 1) = false ∨ rest = []) :
    trailingJunk (number.drop (number.takeWhile identCont).length) rest = false := by
  rw [junk_iff]
  refine h.imp_left (fun h => ?_)
  have hsplit := List.prefix_iff_eq_append.mp (List.takeWhile_prefix (l := number) identCont)
  rw [← hsplit, List.append_assoc, within_word (fun _ hc => List.mem_takeWhile_imp hc)] at h
  exact within_mono h

/-- The word a number's letter or underscore begins, and what of the number is left after it. -/
theorem walks_letter {number : List Char} (hstart : identStart c = true)
    (hplain : (c = 'E' ∨ c = 'e') → (number ++ rest).head? ≠ some '\'')
    (hjunk : trailingJunk (c :: number) rest = false)
    (hlater : ∀ k, k = (number.takeWhile identCont).length → trailingJunk (number.drop k) rest = false →
      WalksCode (number.drop k).length (number.drop k ++ rest)) :
    WalksCode (c :: number).length (c :: number ++ rest) := by
  have hword := junk_word hstart hjunk
  have hsame := takeWhile_word hword
  have hle : (number.takeWhile identCont).length ≤ number.length := (List.takeWhile_prefix _).length_le
  have hrest := hlater _ rfl (junk_after_word hword)
  rw [← List.drop_append_of_le_length hle, ← hsame] at hrest
  have hwalk := walks_word hstart hplain hrest
  rw [hsame] at hwalk
  have hlen : (c :: number).length =
      (number.takeWhile identCont).length + 1 + (number.drop (number.takeWhile identCont).length).length := by
    simp only [List.length_cons, List.length_drop]
    omega
  rw [hlen]
  exact hwalk

theorem walks_shaped {number : List Char} (h : Shaped number) (hjunk : trailingJunk number rest = false) :
    WalksCode number.length (number ++ rest) := by
  -- A word takes several characters at once, so the induction is on a bound of the length.
  have upTo : ∀ n, ∀ number : List Char, number.length ≤ n → Shaped number → trailingJunk number rest = false →
      WalksCode number.length (number ++ rest) := by
    intro n
    induction n with
    | zero =>
      intro number hle _ _
      rw [List.length_eq_zero_iff.mp (Nat.le_zero.mp hle)]
      exact .here
    | succ n ih =>
      intro number hle h hjunk
      have later : ∀ {c : Char} {number : List Char}, (c :: number).length ≤ n + 1 → Shaped number → ∀ k,
          k = (number.takeWhile identCont).length → trailingJunk (number.drop k) rest = false →
          WalksCode (number.drop k).length (number.drop k ++ rest) := by
        intro c number hle hshape k _ hjunk
        refine ih _ ?_ (hshape.drop k) hjunk
        simp only [List.length_cons, List.length_drop] at hle ⊢
        omega
      cases h with
      | nil => exact .here
      | digit hd hshape =>
        have hjunk := junk_past (not_identStart_of_isDigit hd) hjunk
        exact walks_single (single_of_isDigit hd) (ih _ (by simpa using hle) hshape hjunk)
      | point hshape => exact walks_single single_point (ih _ (by simpa using hle) hshape (junk_past rfl hjunk))
      | @sign c d number hs hd hshape =>
        have hstart : identStart c = false := by
          rcases hs with rfl | rfl <;> rfl
        refine walks_single (single_sign hs ?_) (ih _ (by simpa using hle) hshape (junk_past hstart hjunk))
        simpa using hd
      | underscore hshape => exact walks_letter rfl (fun e => absurd e (by decide)) hjunk (later hle hshape)
      | @exponent c d number he hshape =>
        have hstart : identStart c = true := by
          rcases he with rfl | rfl <;> rfl
        refine walks_letter hstart (fun _ => ?_) hjunk (later hle hshape)
        simpa using hshape.head_ne
  exact upTo number.length number (Nat.le_refl _) h hjunk

/-- A hexadecimal, octal or binary integer: a zero and a word. -/
theorem walks_radix {x : Char} {digits : List Char} (hx : identStart x = true ∧ x ≠ 'E' ∧ x ≠ 'e')
    (hdigits : ∀ c ∈ digits, identCont c = true)
    (hjunk : trailingJunk ('0' :: x :: digits) rest = false) :
    WalksCode ('0' :: x :: digits).length ('0' :: x :: digits ++ rest) := by
  refine walks_single (single_of_isDigit rfl) ?_
  have hall : digits.takeWhile identCont = digits := List.takeWhile_eq_self_iff.mpr hdigits
  refine walks_letter hx.1 (fun e => absurd e (by simp [hx.2])) (junk_past rfl hjunk) (fun k hk _ => ?_)
  rw [hk, hall, List.drop_length]
  exact .here

theorem grouped_spec (digit : Char → Bool) (text : List Char) :
    Postgres.grouped digit text <+: text ∧ ∀ c ∈ Postgres.grouped digit text, digit c = true ∨ c = '_' := by
  fun_induction Postgres.grouped digit text with
  | case1 => simp
  | case2 c h => simp [h]
  | case3 c h => simp
  | case4 c d rest h ih =>
    refine ⟨List.cons_prefix_cons.mpr ⟨rfl, ih.1⟩, ?_⟩
    simpa [h] using ih.2
  | case5 c d rest _ h ih =>
    simp only [Bool.and_eq_true, decide_eq_true_eq] at h
    refine ⟨List.cons_prefix_cons.mpr ⟨rfl, List.cons_prefix_cons.mpr ⟨rfl, ih.1⟩⟩, ?_⟩
    simpa [h] using ih.2
  | case6 c d rest _ _ => simp

theorem decinteger_spec (text : List Char) :
    Postgres.decinteger text <+: text ∧ (∀ c ∈ Postgres.decinteger text, c.isDigit = true ∨ c = '_') ∧
      (Postgres.decinteger text).head?.all Char.isDigit = true := by
  unfold Postgres.decinteger
  split
  · simp
  · next c rest =>
    split
    · next hd =>
      obtain ⟨hfront, hall⟩ := grouped_spec Char.isDigit (c :: rest)
      refine ⟨hfront, hall, ?_⟩
      cases rest with
      | nil => simp [Postgres.grouped, hd]
      | cons d rest => simp [Postgres.grouped, hd]
    · simp

theorem Shaped.append_digits {digits number : List Char} (hdigits : ∀ c ∈ digits, c.isDigit = true ∨ c = '_')
    (h : Shaped number) : Shaped (digits ++ number) := by
  induction digits with
  | nil => exact h
  | cons c digits ih =>
    simp only [List.mem_cons, forall_eq_or_imp] at hdigits
    rcases hdigits.1 with hc | rfl
    · exact .digit hc (ih hdigits.2)
    · exact .underscore (ih hdigits.2)

theorem shaped_decinteger {number : List Char} (text : List Char) (h : Shaped number) :
    Shaped (Postgres.decinteger text ++ number) := .append_digits (decinteger_spec text).2.1 h

theorem mantissa_spec (text : List Char) :
    Postgres.mantissa text <+: text ∧ ∀ {number}, Shaped number → Shaped (Postgres.mantissa text ++ number) := by
  have hwhole := (decinteger_spec text).1
  have hsplit := List.prefix_iff_eq_append.mp hwhole
  unfold Postgres.mantissa
  dsimp only
  split
  · next rest hdrop =>
    split
    · exact ⟨List.nil_prefix, fun h => h⟩
    · split
      · exact ⟨hwhole, shaped_decinteger text⟩
      · constructor
        · obtain ⟨later, hlater⟩ := (decinteger_spec rest).1
          refine ⟨later, ?_⟩
          rw [List.append_assoc, List.cons_append, hlater, ← hdrop]
          exact hsplit
        · intro number h
          rw [List.append_assoc, List.cons_append]
          exact shaped_decinteger text (.point (shaped_decinteger rest h))
  · exact ⟨hwhole, shaped_decinteger text⟩

theorem decinteger_cons (h : ¬(Postgres.decinteger text).isEmpty = true) :
    ∃ d ds, Postgres.decinteger text = d :: ds ∧ d.isDigit = true := by
  have hhead := (decinteger_spec text).2.2
  cases hdec : Postgres.decinteger text with
  | nil => simp [hdec] at h
  | cons d ds =>
    rw [hdec] at hhead
    exact ⟨d, ds, rfl, by simpa using hhead⟩

theorem exponent_spec (text : List Char) : Postgres.exponent text <+: text ∧ Shaped (Postgres.exponent text) := by
  unfold Postgres.exponent
  split
  · exact ⟨List.nil_prefix, .nil⟩
  · next e rest =>
    split
    · next he =>
      simp only [Bool.or_eq_true, decide_eq_true_eq] at he
      split
      · exact ⟨List.nil_prefix, .nil⟩
      · next sign after =>
        split
        · next hs =>
          simp only [Bool.or_eq_true, decide_eq_true_eq] at hs
          split
          · exact ⟨List.nil_prefix, .nil⟩
          · next hdec =>
            obtain ⟨d, ds, heq, hd⟩ := decinteger_cons hdec
            have hshape : Shaped (d :: ds) := by simpa [heq] using shaped_decinteger after .nil
            have hfront := (decinteger_spec after).1
            rw [heq] at hfront ⊢
            exact ⟨by simpa using hfront, .exponent he (.sign hs hd hshape)⟩
        · split
          · exact ⟨List.nil_prefix, .nil⟩
          · next hdec =>
            obtain ⟨d, ds, heq, _⟩ := decinteger_cons hdec
            have hshape : Shaped (d :: ds) := by simpa [heq] using shaped_decinteger (sign :: after) .nil
            have hfront := (decinteger_spec (sign :: after)).1
            rw [heq] at hfront ⊢
            exact ⟨List.cons_prefix_cons.mpr ⟨rfl, hfront⟩, .exponent he hshape⟩
    · exact ⟨List.nil_prefix, .nil⟩

theorem radixDigit_some {letter : Char} (h : Postgres.radixDigit letter c = true) :
    (identStart letter = true ∧ letter ≠ 'E' ∧ letter ≠ 'e') ∧ identCont c = true := by
  have hcont : c.isAlpha = true ∨ c.isDigit = true → identCont c = true := by
    intro hc
    simp only [identCont, identStart]
    rcases hc with hc | hc <;> simp [hc]
  unfold Postgres.radixDigit at h
  split at h
  · next hletter =>
    simp only [Bool.or_eq_true, decide_eq_true_eq] at hletter
    refine ⟨by rcases hletter with rfl | rfl <;> decide, hcont ?_⟩
    simp only [Bool.or_eq_true, Bool.and_eq_true, decide_eq_true_eq, Char.le_def, UInt32.le_iff_toNat_le] at h
    rcases h with (h | h) | h
    · exact .inr h
    · exact .inl ((isAlpha_iff c).mpr (.inr ⟨h.1, Nat.le_trans h.2 (by decide)⟩))
    · exact .inl ((isAlpha_iff c).mpr (.inl ⟨h.1, Nat.le_trans h.2 (by decide)⟩))
  · split at h
    · next hletter =>
      simp only [Bool.or_eq_true, decide_eq_true_eq] at hletter
      refine ⟨by rcases hletter with rfl | rfl <;> decide, hcont (.inr ?_)⟩
      simp only [Bool.and_eq_true, decide_eq_true_eq, Char.le_def, UInt32.le_iff_toNat_le] at h
      exact (isDigit_iff c).mpr ⟨h.1, Nat.le_trans h.2 (by decide)⟩
    · split at h
      · next hletter =>
        simp only [Bool.or_eq_true, decide_eq_true_eq] at hletter h
        refine ⟨by rcases hletter with rfl | rfl <;> decide, hcont (.inr ?_)⟩
        rcases h with rfl | rfl <;> decide
      · cases h

theorem grouped_digit {digit : Char → Bool} (h : ¬(Postgres.grouped digit text).isEmpty = true) : ∃ c, digit c = true := by
  fun_cases Postgres.grouped digit text with
  | case1 => simp [Postgres.grouped] at h
  | case2 c hc => exact ⟨c, hc⟩
  | case3 c hc => simp [Postgres.grouped, hc] at h
  | case4 c _ _ hc => exact ⟨c, hc⟩
  | case5 c d _ _ hc => exact ⟨d, by simp_all⟩
  | case6 c d later hc hd => simp [Postgres.grouped, hc, hd] at h

theorem radixInteger_spec (text : List Char) :
    Postgres.radixInteger text <+: text ∧ ∀ rest, trailingJunk (Postgres.radixInteger text) rest = false →
      WalksCode (Postgres.radixInteger text).length (Postgres.radixInteger text ++ rest) := by
  unfold Postgres.radixInteger
  split
  · next letter after =>
    dsimp only
    split
    · exact ⟨List.nil_prefix, fun _ _ => .here⟩
    · next hdigits =>
      obtain ⟨hfront, hall⟩ := grouped_spec (Postgres.radixDigit letter) after
      obtain ⟨d, hd⟩ := grouped_digit hdigits
      refine ⟨by simpa using hfront, fun rest hjunk => walks_radix (radixDigit_some hd).1 (fun c hc => ?_) hjunk⟩
      rcases hall c hc with hc | rfl
      · exact (radixDigit_some hc).2
      · rfl
  · exact ⟨List.nil_prefix, fun _ _ => .here⟩

theorem numeral_spec (text : List Char) :
    Postgres.numeral text <+: text ∧ ∀ rest, trailingJunk (Postgres.numeral text) rest = false →
      WalksCode (Postgres.numeral text).length (Postgres.numeral text ++ rest) := by
  unfold Postgres.numeral
  dsimp only
  split
  · obtain ⟨hfront, hshape⟩ := mantissa_spec text
    obtain ⟨⟨later, hlater⟩, hexponent⟩ := exponent_spec (text.drop (Postgres.mantissa text).length)
    refine ⟨⟨later, ?_⟩, fun rest hjunk => walks_shaped (hshape hexponent) hjunk⟩
    rw [List.append_assoc, hlater]
    exact List.prefix_iff_eq_append.mp hfront
  · exact radixInteger_spec text

variable (rest) in
theorem decinteger_of_digit (h : c.isDigit = true) : Postgres.decinteger (c :: rest) ≠ [] := by
  simp only [Postgres.decinteger, h, if_true]
  cases rest with
  | nil => simp [Postgres.grouped, h]
  | cons d rest => simp [Postgres.grouped, h]

theorem numeral_ne_nil (h : c.isDigit = true ∨ (c = '.' ∧ rest.head?.any Char.isDigit = true)) :
    Postgres.numeral (c :: rest) ≠ [] := by
  have hmantissa : Postgres.mantissa (c :: rest) ≠ [] := by
    rcases h with h | ⟨rfl, h⟩
    · have hdec := decinteger_of_digit rest h
      unfold Postgres.mantissa
      dsimp only
      split
      · split
        · simp_all
        · split
          · exact hdec
          · simp
      · exact hdec
    · cases rest with
      | nil => simp at h
      | cons d rest =>
        have hdec := decinteger_of_digit rest (by simpa using h)
        have hempty : Postgres.decinteger ('.' :: d :: rest) = [] := by
          simp [Postgres.decinteger, show Char.isDigit '.' = false from rfl]
        simp only [Postgres.mantissa, hempty, List.length_nil, List.drop_zero]
        simp [hdec]
  unfold Postgres.numeral
  dsimp only
  split
  · simp [hmantissa]
  · next hradix => simpa using hradix

end Walks

/-! ## A token of the scanner -/

section Tokens

variable {c : Char} {rest : List Char} {p : Scan.Piece Postgres.Token}

/-- The tokenizer reads the characters of a token in whole turns, as the token is read. -/
abbrev Reads (p : Scan.Piece Postgres.Token) (text : List Char) : Prop :=
  Scan.Walks lexRule (fun k => k.cls = p.kind.cls ∧ k.closed = p.kind.closed) (p.more + 1) text

variable {text : List Char} {lead : Nat}

theorem reads_one {k : Lexeme} (h : lexAt c rest = ⟨k, p.more⟩) (hle : p.more ≤ rest.length)
    (hk : k.cls = p.kind.cls ∧ k.closed = p.kind.closed) : Reads p (c :: rest) := by
  have hstep : lexRule c rest = some ⟨k, p.more⟩ := congrArg some h
  exact .one hstep hle hk

/-- A constant that is not continued ends where its only piece does. -/
theorem constantEnd_eq (h : Postgres.isContinued introducer text = false) :
    Postgres.constantEnd introducer text.length text =
      ((Postgres.pieceEnd introducer text).getD text.length, (Postgres.pieceEnd introducer text).isSome) := by
  cases text with
  | nil => rfl
  | cons c rest =>
    simp only [Postgres.isContinued] at h
    simp only [List.length_cons, Postgres.constantEnd]
    cases hend : Postgres.pieceEnd introducer (c :: rest) with
    | none => simp
    | some size =>
      simp only [hend] at h
      have hnone : Postgres.continuation false false ((c :: rest).drop size) = none := by
        cases hgap : Postgres.continuation false false ((c :: rest).drop size) with
        | none => rfl
        | some gap => simp [hgap] at h
      simp [hnone]

theorem constant_spec (lead : Nat) (hbits : introducer ≠ .bits) (h : Postgres.isContinued introducer text = false) :
    (Postgres.constant introducer lead text).more = lead + (quotedBody '\'' (introducer = .escape) text).size ∧
      (Postgres.constant introducer lead text).kind.closed = (quotedBody '\'' (introducer = .escape) text).closed := by
  obtain ⟨hsize, hclosed, _⟩ := pieceEnd_ends hbits text
  simp only [Postgres.constant, constantEnd_eq h, hsize, hclosed, and_self]

theorem quotedIdentifier_spec (introducer : Postgres.Introducer) (lead : Nat) (text : List Char) :
    (Postgres.quotedIdentifier introducer lead text).more = lead + (quotedBody '"' false text).size ∧
      (Postgres.quotedIdentifier introducer lead text).kind.closed = (quotedBody '"' false text).closed ∧
      (Postgres.quotedIdentifier introducer lead text).kind.cls = .quoted := by
  obtain ⟨hsize, hclosed, _⟩ := identifierEnd_ends text
  unfold Postgres.quotedIdentifier
  cases hend : Postgres.identifierEnd text with
  | none => simp [hsize, hclosed, hend]
  | some size => simp [hsize, hclosed, hend]

theorem constant_ordinary (h : (Postgres.constant introducer lead text).kind.ordinary = true) :
    Postgres.isContinued introducer text = false ∧ introducer ≠ .bits ∧ introducer ≠ .unicode := by
  cases introducer <;> simp_all [Postgres.constant, Postgres.Token.ordinary]

theorem unicode_not_ordinary : (Postgres.quotedIdentifier .unicode lead text).kind.ordinary = false := by
  unfold Postgres.quotedIdentifier
  split <;> rfl

theorem reads_word (h : identStart c = true) (hplain : (c = 'E' ∨ c = 'e') → rest.head? ≠ some '\'') :
    Reads (Postgres.code (rest.takeWhile identCont).length) (c :: rest) :=
  reads_one (lexAt_word h hplain) (List.takeWhile_prefix _).length_le ⟨rfl, rfl⟩

theorem escape_reads (he : c = 'E' ∨ c = 'e')
    (hordinary : (Postgres.constant .escape 1 rest).kind.ordinary = true) :
    Reads (Postgres.constant .escape 1 rest) (c :: '\'' :: rest) := by
  obtain ⟨hcontinued, hbits, _⟩ := constant_ordinary hordinary
  obtain ⟨hmore, hclosed⟩ := constant_spec 1 hbits hcontinued
  have hle : (quotedBody '\'' true rest).size ≤ rest.length := (pieceEnd_ends hbits rest).le
  have hmore : (Postgres.constant .escape 1 rest).more = 1 + (quotedBody '\'' true rest).size := hmore
  have hlex : lexAt c ('\'' :: rest) =
      ⟨.string none (quotedBody '\'' true rest).closed, (Postgres.constant .escape 1 rest).more⟩ := hmore ▸ lexAt_escape he
  refine reads_one hlex ?_ ⟨rfl, hclosed.symm⟩
  rw [hmore, List.length_cons]
  omega

theorem word_reads (h : identStart c = true) (hordinary : (Postgres.word c rest).kind.ordinary = true) :
    Reads (Postgres.word c rest) (c :: rest) := by
  unfold Postgres.word at hordinary ⊢
  split at hordinary
  · next after =>
    split at hordinary
    · next he =>
      rw [if_pos he]
      exact escape_reads (by simpa using he) hordinary
    · next he =>
      rw [if_neg he]
      split at hordinary
      · exact absurd rfl (constant_ordinary hordinary).2.1
      · next hb =>
        rw [if_neg hb]
        exact reads_word h (fun e => absurd e (by simpa using he))
  · next after =>
    split at hordinary
    · exact absurd rfl (constant_ordinary hordinary).2.2
    · next hu =>
      rw [if_neg hu]
      exact reads_word h (by simp)
  · next after =>
    split at hordinary
    · exact absurd ((unicode_not_ordinary).symm.trans hordinary) (by decide)
    · next hu =>
      rw [if_neg hu]
      exact reads_word h (by simp)
  · next hquote _ _ =>
    refine reads_word h (fun _ e => ?_)
    cases rest with
    | nil => simp at e
    | cons d after => exact hquote after (by simpa using e)

theorem string_reads (hordinary : (Postgres.constant .none 0 rest).kind.ordinary = true) :
    Reads (Postgres.constant .none 0 rest) ('\'' :: rest) := by
  obtain ⟨hcontinued, hbits, _⟩ := constant_ordinary hordinary
  obtain ⟨hmore, hclosed⟩ := constant_spec 0 hbits hcontinued
  have hle : (quotedBody '\'' false rest).size ≤ rest.length := (pieceEnd_ends hbits rest).le
  have hmore : (Postgres.constant .none 0 rest).more = (quotedBody '\'' false rest).size := by
    rw [hmore, Nat.zero_add]
    rfl
  have hlex : lexAt '\'' rest = ⟨.string (some (quotedBody '\'' false rest).text) (quotedBody '\'' false rest).closed,
      (Postgres.constant .none 0 rest).more⟩ := hmore ▸ lexAt_string
  exact reads_one hlex (hmore ▸ hle) ⟨rfl, hclosed.symm⟩

theorem quoted_reads : Reads (Postgres.quotedIdentifier .none 0 rest) ('"' :: rest) := by
  obtain ⟨hmore, hclosed, hcls⟩ := quotedIdentifier_spec .none 0 rest
  have hle := (identifierEnd_ends rest).le
  rw [Nat.zero_add] at hmore
  have hlex : lexAt '"' rest = ⟨.quoted (quotedBody '"' false rest).text (quotedBody '"' false rest).closed,
      (Postgres.quotedIdentifier .none 0 rest).more⟩ := hmore ▸ lexAt_quoted
  exact reads_one hlex (hmore ▸ hle) ⟨hcls.symm, hclosed.symm⟩

theorem dollar_reads (h : Postgres.dollar rest = some p) : Reads p ('$' :: rest) := by
  unfold Postgres.dollar at h
  cases htag : Postgres.delimiter ('$' :: rest) with
  | some tag =>
    obtain ⟨hshape, hfront⟩ := delimiter_some htag
    have hlen : tag.length ≤ rest.length + 1 := by simpa using hfront.length_le
    have hpos := hshape.length_pos
    simp only [htag, dollarEnd_eq hshape] at h
    cases hindex : indexOf tag (rest.drop (tag.length - 1)) with
    | some stop =>
      have hlex := lexAt_tag_closed htag hindex
      simp only [hindex, Option.map_some, Option.some.injEq] at h
      subst h
      have hle := indexOf_le hindex
      rw [List.length_drop] at hle
      exact reads_one hlex (by dsimp only; omega) ⟨rfl, rfl⟩
    | none =>
      have hlex := lexAt_tag_open htag hindex
      simp only [hindex, Option.map_none, Option.some.injEq] at h
      subst h
      exact reads_one hlex (Nat.le_refl _) ⟨rfl, rfl⟩
  | none =>
    have hsingle : Single '$' rest :=
      ⟨rfl, rfl, by decide, fun e => absurd e (by decide), fun e => absurd e (by decide), fun _ => htag⟩
    simp only [htag] at h
    split at h
    · cases h
    · next hjunk =>
      cases h
      cases hdigits : rest.takeWhile Char.isDigit with
      | nil => exact walks_single hsingle .here
      | cons d ds =>
        have hall : ∀ c ∈ d :: ds, c.isDigit = true ∨ c = '_' := by
          intro c hc
          exact .inl (List.mem_takeWhile_imp (hdigits ▸ hc))
        have hshape : Shaped (d :: ds) := by simpa using Shaped.append_digits hall .nil
        have hfront : d :: ds <+: rest := hdigits ▸ List.takeWhile_prefix _
        have hjunk : trailingJunk (d :: ds) (rest.drop (d :: ds).length) = false := by simpa [hdigits] using hjunk
        have hwalk := walks_shaped hshape hjunk
        rw [List.prefix_iff_eq_append.mp hfront] at hwalk
        exact walks_single hsingle hwalk

theorem number_reads (hc : c.isDigit = true ∨ (c = '.' ∧ rest.head?.any Char.isDigit = true))
    (h : Postgres.number (c :: rest) = some p) : Reads p (c :: rest) := by
  unfold Postgres.number at h
  dsimp only at h
  split at h
  · cases h
  · next hjunk =>
    cases h
    obtain ⟨hfront, hwalks⟩ := numeral_spec (c :: rest)
    have hpos : 0 < (Postgres.numeral (c :: rest)).length := List.length_pos_iff.mpr (numeral_ne_nil hc)
    have hwalk := hwalks _ (Bool.eq_false_iff.mpr hjunk)
    rw [List.prefix_iff_eq_append.mp hfront] at hwalk
    have hlen : (Postgres.numeral (c :: rest)).length - 1 + 1 = (Postgres.numeral (c :: rest)).length := by omega
    show Scan.Walks _ _ (_ - 1 + 1) _
    rw [hlen]
    exact hwalk

theorem comment_reads {closed : Bool} {more : Nat} (h : Ends (Postgres.commentEnd 0 rest) rest more closed) :
    Reads ⟨.plain .blank closed, 1 + more⟩ ('/' :: '*' :: rest) := by
  have hcomment := blockComment_ends 0 rest
  have hsize : (blockComment (0 + 1) rest).1 = more := hcomment.size.trans h.size.symm
  have hclosed : decide ((blockComment (0 + 1) rest).2 = 0) = closed := hcomment.closed.trans h.closed.symm
  have hlex : lexAt '/' ('*' :: rest) = ⟨.blank closed, 1 + more⟩ := by
    rw [lexAt_block rfl]
    simp only [blockComment, and_self, if_true, hsize, hclosed]
    congr 1
    omega
  have hle := h.le
  exact reads_one hlex (by simp only [List.length_cons]; omega) ⟨rfl, rfl⟩

theorem token_reads (h : Postgres.token c rest = some p) (hordinary : p.kind.ordinary = true) : Reads p (c :: rest) := by
  unfold Postgres.token at h
  split at h
  · next hspace =>
    cases h
    exact reads_one (lexAt_space hspace) (Nat.zero_le _) ⟨rfl, rfl⟩
  split at h
  · next hline =>
    obtain ⟨rfl, hhead⟩ := hline
    cases h
    exact reads_one (lexAt_line hhead) (List.takeWhile_prefix _).length_le ⟨rfl, rfl⟩
  split at h
  · next hblock =>
    obtain ⟨rfl, hhead⟩ := hblock
    cases rest with
    | nil => simp at hhead
    | cons d after =>
      obtain rfl : d = '*' := by simpa using hhead
      have hends := blockComment_ends 0 after
      cases hstop : Postgres.commentEnd 0 after with
      | some size =>
        simp only [List.tail_cons, hstop, Option.some.injEq] at h
        subst h
        exact comment_reads ⟨by rw [hstop]; rfl, by rw [hstop]; rfl, by simpa [hends.size, hstop] using hends.le⟩
      | none =>
        simp only [List.tail_cons, hstop, Option.some.injEq] at h
        subst h
        rw [List.length_cons, Nat.add_comm]
        exact comment_reads (hstop ▸ Ends.none after)
  split at h
  · next hquote =>
    subst hquote
    cases h
    exact string_reads hordinary
  split at h
  · next hquote =>
    subst hquote
    cases h
    exact quoted_reads
  split at h
  · next hdollar =>
    subst hdollar
    exact dollar_reads h
  split at h
  · next hdots =>
    obtain ⟨rfl, hhead⟩ := hdots
    cases h
    cases rest with
    | nil => simp at hhead
    | cons d rest =>
      obtain rfl : d = '.' := by simpa using hhead
      exact walks_single single_point (walks_single single_point .here)
  split at h
  · next hnumber => exact number_reads hnumber h
  split at h
  · next hstart =>
    cases h
    exact word_reads hstart hordinary
  · next hspace hline hblock hquote hquoted hdollar _ _ hstart =>
    cases h
    refine walks_single ⟨by simpa using hspace, by simpa using hstart, ⟨hquote, hquoted⟩, ?_, ?_, ?_⟩ .here
    · exact fun e e' => hline ⟨e, e'⟩
    · exact fun e e' => hblock ⟨e, e'⟩
    · exact fun e => absurd e hdollar

/-! ## Where the two part -/

/-- The tokenizer reads some character of the token as another class than the scanner does. -/
def Parts (p : Scan.Piece Postgres.Token) (text : List Char) : Prop :=
  ∃ i, i ≤ p.more ∧ i < text.length ∧ (classes text)[i]? ≠ some p.kind.cls

theorem classes_cons (c : Char) (rest : List Char) :
    classes (c :: rest) = List.replicate (min (lexAt c rest).more rest.length + 1) (lexAt c rest).kind.cls ++
      classes (rest.drop (lexAt c rest).more) := Scan.marks_cons rfl

theorem classes_head (c : Char) (rest : List Char) : (classes (c :: rest))[0]? = some (lexAt c rest).kind.cls := by
  rw [classes_cons, List.replicate_succ, List.cons_append, List.getElem?_cons_zero]

/-- What `B`, `X` or `U&` introduces starts with a word for the tokenizer. -/
theorem introduced_parts (h : identStart c = true) (hplain : (c = 'E' ∨ c = 'e') → rest.head? ≠ some '\'')
    (hcls : p.kind.cls ≠ .code) : Parts p (c :: rest) := by
  refine ⟨0, Nat.zero_le _, by simp, ?_⟩
  rw [classes_head, lexAt_word h hplain]
  simpa [Lexeme.cls] using hcls.symm

/-- A constant is continued over whitespace or a comment, which is no part of a constant for the tokenizer. -/
theorem continuation_blank {gap : Nat} (h : Postgres.continuation false false text = some gap) :
    0 < gap ∧ ∃ c rest, text = c :: rest ∧ (lexAt c rest).kind.cls = .blank := by
  cases text with
  | nil => simp [Postgres.continuation] at h
  | cons c rest =>
    have hpos : ∀ {stop : Option Nat}, stop.map (· + 1) = some gap → 0 < gap := by
      intro stop hstop
      obtain ⟨later, _, rfl⟩ := Option.map_eq_some_iff.mp hstop
      omega
    unfold Postgres.continuation at h
    split at h
    · next hnewline =>
      have hspace : Postgres.space c = true := by simp [Postgres.space, hnewline]
      exact ⟨hpos h, c, rest, rfl, by rw [lexAt_space hspace]; rfl⟩
    · simp only [Bool.false_eq_true, if_false, and_false] at h
      split at h
      · next hspace => exact ⟨hpos h, c, rest, rfl, by rw [lexAt_space hspace]; rfl⟩
      · split at h
        · next hline =>
          obtain ⟨rfl, hhead⟩ := hline
          exact ⟨hpos h, '-', rest, rfl, by rw [lexAt_line hhead]; rfl⟩
        · cases h

theorem continued_more {size gap : Nat} (hend : Postgres.pieceEnd introducer text = some size)
    (hgap : Postgres.continuation false false (text.drop size) = some gap) :
    size + gap ≤ (Postgres.constantEnd introducer text.length text).1 := by
  cases text with
  | nil => simp [Postgres.pieceEnd] at hend
  | cons c rest =>
    simp only [List.length_cons, Postgres.constantEnd, hend, hgap]
    omega

/-- A constant goes on in the scanner where the tokenizer has already closed it. -/
theorem continued_parts {k : Lexeme} (hbits : introducer ≠ .bits) (hcontinued : Postgres.isContinued introducer text = true)
    (hlex : lexAt c rest = ⟨k, lead + (quotedBody '\'' (introducer = .escape) text).size⟩)
    (hrest : rest.drop lead = text ∧ lead ≤ rest.length) : Parts (Postgres.constant introducer lead text) (c :: rest) := by
  obtain ⟨hsize, _, hle⟩ := pieceEnd_ends hbits text
  unfold Postgres.isContinued at hcontinued
  cases hend : Postgres.pieceEnd introducer text with
  | none => simp [hend] at hcontinued
  | some size =>
    simp only [hend] at hcontinued
    obtain ⟨gap, hgap⟩ := Option.isSome_iff_exists.mp hcontinued
    obtain ⟨hpos, d, after, hafter, hblank⟩ := continuation_blank hgap
    have hmore := continued_more hend hgap
    rw [hend, Option.getD_some] at hsize
    rw [hsize] at hlex hle
    have hlen : rest.length = lead + text.length := by
      rw [← hrest.1, List.length_drop]
      omega
    have hdrop : rest.drop (lead + size) = d :: after := by
      rw [← List.drop_drop, hrest.1, hafter]
    have hafterlen : size < text.length := by
      by_contra hge
      rw [List.drop_eq_nil_of_le (by omega)] at hafter
      cases hafter
    refine ⟨lead + size + 1, ?_, ?_, ?_⟩
    · show _ ≤ lead + _
      omega
    · rw [List.length_cons]
      omega
    · have hmin : min (lead + size) rest.length = lead + size := Nat.min_eq_left (by omega)
      rw [classes_cons, hlex]
      dsimp only
      rw [hmin, hdrop, List.getElem?_append_right (by simp), List.length_replicate, Nat.sub_self, classes_head, hblank]
      simp [Postgres.constant]

theorem constant_not_ordinary (h : (Postgres.constant introducer lead text).kind.ordinary = false)
    (hplain : introducer = .none ∨ introducer = .escape) : Postgres.isContinued introducer text = true := by
  rcases hplain with rfl | rfl <;> simpa [Postgres.constant, Postgres.Token.ordinary] using h

theorem word_parts (h : identStart c = true) (hordinary : (Postgres.word c rest).kind.ordinary = false) :
    Parts (Postgres.word c rest) (c :: rest) := by
  unfold Postgres.word at hordinary ⊢
  split at hordinary
  · next after =>
    split at hordinary
    · next he =>
      rw [if_pos he]
      have hcontinued := constant_not_ordinary hordinary (.inr rfl)
      exact continued_parts (by decide) hcontinued (lexAt_escape (by simpa using he)) ⟨rfl, by simp⟩
    · next he =>
      rw [if_neg he]
      split at hordinary
      · next hb =>
        rw [if_pos hb]
        exact introduced_parts h (fun e => absurd e (by simpa using he)) (by simp [Postgres.constant])
      · cases hordinary
  · next after =>
    split at hordinary
    · next hu =>
      rw [if_pos hu]
      exact introduced_parts h (by simp) (by simp [Postgres.constant])
    · cases hordinary
  · next after =>
    split at hordinary
    · next hu =>
      rw [if_pos hu]
      exact introduced_parts h (by simp) (by rw [(quotedIdentifier_spec .unicode 2 after).2.2]; decide)
    · cases hordinary
  · cases hordinary

theorem dollar_ordinary (h : Postgres.dollar rest = some p) : p.kind.ordinary = true := by
  unfold Postgres.dollar at h
  split at h
  · dsimp only at h
    split at h
    · cases h
      rfl
    · cases h
      rfl
  · dsimp only at h
    split at h
    · cases h
    · cases h
      rfl

theorem number_ordinary (h : Postgres.number text = some p) : p.kind.ordinary = true := by
  unfold Postgres.number at h
  dsimp only at h
  split at h
  · cases h
  · cases h
    rfl

theorem quotedIdentifier_ordinary : (Postgres.quotedIdentifier .none lead rest).kind.ordinary = true := by
  unfold Postgres.quotedIdentifier
  split <;> rfl

theorem token_parts (h : Postgres.token c rest = some p) (hordinary : p.kind.ordinary = false) : Parts p (c :: rest) := by
  have hno : p.kind.ordinary ≠ true := by simp [hordinary]
  unfold Postgres.token at h
  split at h
  · cases h
    exact absurd rfl hno
  split at h
  · cases h
    exact absurd rfl hno
  split at h
  · split at h
    · cases h
      exact absurd rfl hno
    · cases h
      exact absurd rfl hno
  split at h
  · next hquote =>
    subst hquote
    cases h
    have hcontinued := constant_not_ordinary hordinary (.inl rfl)
    have hlex : lexAt '\'' rest = ⟨.string (some (quotedBody '\'' false rest).text) (quotedBody '\'' false rest).closed,
        0 + (quotedBody '\'' false rest).size⟩ := by
      rw [Nat.zero_add]
      exact lexAt_string
    exact continued_parts (by decide) hcontinued hlex ⟨rfl, Nat.zero_le _⟩
  split at h
  · cases h
    exact absurd quotedIdentifier_ordinary hno
  split at h
  · exact absurd (dollar_ordinary h) hno
  split at h
  · cases h
    exact absurd rfl hno
  split at h
  · exact absurd (number_ordinary h) hno
  split at h
  · next hstart =>
    cases h
    exact word_parts hstart hordinary
  · cases h
    exact absurd rfl hno

end Tokens

/-! ## The whole text -/

section Texts

variable {c : Char} {rest text : List Char} {p : Scan.Piece Postgres.Token}

theorem ordinary_cons (h : Postgres.token c rest = some p) :
    Postgres.ordinary (c :: rest) = (p.kind.ordinary && Postgres.ordinary (rest.drop p.more)) := by
  simp [Postgres.ordinary, Scan.scan_cons h]

theorem scanned_cons (h : Postgres.token c rest = some p) (hle : p.more ≤ rest.length) :
    Postgres.classes (c :: rest) = List.replicate (p.more + 1) p.kind.cls ++ Postgres.classes (rest.drop p.more) := by
  rw [Postgres.classes, Scan.marks_cons h, Nat.min_eq_left hle, Postgres.classes]

theorem classes_reads (h : Reads p (c :: rest)) :
    classes (c :: rest) = List.replicate (p.more + 1) p.kind.cls ++ classes (rest.drop p.more) := by
  have heq := h.marks_eq (f := Lexeme.cls) (c := p.kind.cls) (fun k hk => hk.1)
  rwa [List.drop_succ_cons] at heq

theorem Reads.le (h : Reads p (c :: rest)) : p.more ≤ rest.length := by
  have := Scan.Walks.le_length h
  rw [List.length_cons] at this
  omega

/-- Induction along the scanner's tokens, up to its end or where it refuses the text. -/
theorem scanned_induction {P : List Char → Prop} (hnil : P [])
    (hnone : ∀ c rest, Postgres.token c rest = none → P (c :: rest))
    (hsome : ∀ c rest p, Postgres.token c rest = some p → P (rest.drop p.more) → P (c :: rest)) (text : List Char) : P text := by
  generalize hn : text.length = n
  induction n using Nat.strong_induction_on generalizing text with
  | _ n ih =>
    cases text with
    | nil => exact hnil
    | cons c rest =>
      cases htoken : Postgres.token c rest with
      | none => exact hnone c rest htoken
      | some p =>
        refine hsome c rest p htoken (ih (rest.drop p.more).length ?_ _ rfl)
        rw [← hn, List.length_cons, List.length_drop]
        omega

/-- Up to where the scanner refuses the text, the tokenizer gives each character its class
    exactly when its tokens are ordinary. -/
theorem classes_iff (text : List Char) : Postgres.classes text <+: classes text ↔ Postgres.ordinary text = true := by
  induction text using scanned_induction with
  | hnil => simp [Postgres.classes, Postgres.ordinary]
  | hnone c rest htoken => simp [Postgres.classes, Postgres.ordinary, Scan.marks_none htoken, Scan.scan_none htoken]
  | hsome c rest p htoken ih =>
    rw [ordinary_cons htoken]
    cases hordinary : p.kind.ordinary with
    | true =>
      have hreads := token_reads htoken hordinary
      rw [scanned_cons htoken hreads.le, classes_reads hreads, List.prefix_append_right_inj, Bool.true_and]
      exact ih
    | false =>
      -- The two differ at a character of this token, so no prefix of the classes reaches past it.
      obtain ⟨i, hi, hlen, hne⟩ := token_parts htoken hordinary
      rw [List.length_cons] at hlen
      have hscanned : (Postgres.classes (c :: rest))[i]? = some p.kind.cls := by
        rw [Postgres.classes, Scan.marks_cons htoken, List.getElem?_append_left (by rw [List.length_replicate]; omega),
          List.getElem?_replicate, if_pos (by omega)]
      refine iff_of_false ?_ (by simp)
      rintro ⟨later, hlater⟩
      obtain ⟨hlt, _⟩ := List.getElem?_eq_some_iff.mp hscanned
      rw [← List.getElem?_append_left hlt, hlater] at hscanned
      exact hne hscanned

/-! ## What never closes -/

theorem lexFrom_unterminated (line : Nat) (ls : Lexemes) :
    (lexFrom line ls).unterminated.isSome = ls.any fun x => !x.1.kind.closed := by
  induction ls generalizing line with
  | nil => rfl
  | cons x ls ih =>
    simp only [lexFrom, List.any_cons]
    cases hclosed : x.1.kind.closed with
    | true => simpa using ih _
    | false => simp

theorem readsAll_cons (h : Postgres.token c rest = some p) (hle : p.more ≤ rest.length) :
    Postgres.readsAll (c :: rest) = Postgres.readsAll (rest.drop p.more) := by
  simp only [Postgres.readsAll, scanned_cons h hle, List.length_append, List.length_replicate, List.length_cons,
    List.length_drop]
  rw [decide_eq_decide]
  omega

theorem unterminated_iff (hordinary : Postgres.ordinary text = true) (hall : Postgres.readsAll text = true) :
    (lexemes text).any (fun x => !x.1.kind.closed) = Postgres.unterminated text := by
  induction text using scanned_induction with
  | hnil => rfl
  | hnone c rest htoken => simp [Postgres.readsAll, Postgres.classes, Scan.marks_none htoken] at hall
  | hsome c rest p htoken ih =>
    rw [ordinary_cons htoken, Bool.and_eq_true] at hordinary
    have hreads := token_reads htoken hordinary.1
    rw [readsAll_cons htoken hreads.le] at hall
    obtain ⟨ps, hps, hlen, hkinds⟩ := hreads.scan_eq
    have hpiece : (ps.any fun x => !x.1.kind.closed) = !p.kind.closed := by
      cases ps with
      | nil => simp at hlen
      | cons x ps =>
        cases hclosed : p.kind.closed with
        | true =>
          simp only [Bool.not_true, List.any_eq_false, Bool.not_eq_true', Bool.not_eq_false]
          intro y hy
          rw [(hkinds y hy).2, hclosed]
        | false =>
          simp only [List.any_cons, (hkinds x List.mem_cons_self).2, hclosed, Bool.not_false, Bool.true_or]
    rw [lexemes, hps, List.any_append, hpiece, List.drop_succ_cons]
    simp only [Postgres.unterminated, Scan.scan_cons htoken, List.any_cons]
    rw [← Postgres.unterminated, ← ih hordinary.2 hall, lexemes]

/-! ## Semicolons -/

/-- A semicolon the tokenizer reads as code is a token of its own. -/
def Apart (x : Scan.Piece Lexeme × List Char) : Prop :=
  (x.1.kind = .punct ';' ∧ x.2 = [';']) ∨ (x.1.kind ≠ .punct ';' ∧ (x.1.kind.cls = .code → ';' ∉ x.2))

theorem lexAt_apart (c : Char) (rest : List Char) : Apart (lexAt c rest, c :: rest.take (lexAt c rest).more) := by
  have other : ∀ {k : Lexeme} {n : Nat}, k.cls ≠ .code → Apart (⟨k, n⟩, c :: rest.take n) := by
    intro k n hk
    refine .inr ⟨?_, fun e => absurd e hk⟩
    rintro rfl
    exact hk rfl
  unfold lexAt
  dsimp only
  split
  · exact other (by decide)
  split
  · exact other (by decide)
  split
  · exact other (by simp [Lexeme.cls])
  split
  · exact other (by simp [Lexeme.cls])
  split
  · exact other (by simp [Lexeme.cls])
  split
  · split
    · exact other (by simp [Lexeme.cls])
    · exact other (by simp [Lexeme.cls])
  split
  · next hstart =>
    refine .inr ⟨by simp, fun _ hmem => ?_⟩
    have hfront := List.prefix_iff_eq_take.mp (List.takeWhile_prefix (l := rest) isWordPart)
    dsimp only at hmem
    rw [← hfront] at hmem
    rcases List.mem_cons.mp hmem with rfl | hmem
    · exact absurd hstart (by decide)
    · exact absurd (List.mem_takeWhile_imp hmem) (by decide)
  · by_cases hc : c = ';'
    · exact .inl ⟨by rw [hc], by simp [hc]⟩
    · exact .inr ⟨by simpa using hc, fun _ => by simpa using Ne.symm hc⟩

theorem lexemes_apart {x : Scan.Piece Lexeme × List Char} (h : x ∈ lexemes text) : Apart x := by
  obtain ⟨c, rest, hrule, htext⟩ := Scan.scan_mem h
  obtain ⟨p, t⟩ := x
  obtain rfl : lexAt c rest = p := Option.some.inj hrule
  obtain rfl : t = c :: rest.take (lexAt c rest).more := htext
  exact lexAt_apart c rest

theorem not_isSemicolon {k : Lexeme} (h : k ≠ .punct ';') (line : Nat) :
    ∀ token ∈ (k.token line).toList, token.isSemicolon = false := by
  intro token htoken
  cases k with
  | punct c =>
    obtain rfl : token = SqlToken.punct c line := by simpa [Lexeme.token] using htoken
    simpa [SqlToken.isSemicolon] using h
  | blank _ => simp [Lexeme.token] at htoken
  | word _ | quoted _ _ | string _ _ | dollar _ _ =>
    simp only [Lexeme.token, Option.toList_some, List.mem_singleton] at htoken
    rw [htoken]
    rfl

theorem placed_ends (offset line : Nat) (ls : Lexemes) (h : ∀ x ∈ ls, Apart x) :
    ((placed offset line ls).filter (·.2.isSemicolon)).map (·.1) =
      ((((ls.flatMap (·.2)).zip (ls.flatMap fun x => x.2.map fun _ => x.1.kind.cls)).zipIdx offset).filter
        fun x => x.1 = (';', Postgres.Class.code)).map (·.2) := by
  induction ls generalizing offset line with
  | nil => rfl
  | cons x ls ih =>
    obtain ⟨⟨k, more⟩, t⟩ := x
    simp only [List.mem_cons, forall_eq_or_imp] at h
    have hlen : t.length = (t.map fun _ => k.cls).length := by simp
    simp only [placed, List.flatMap_cons, List.filter_append, List.map_append, ih _ _ h.2, List.zip_append hlen,
      List.zipIdx_append, List.length_zip, List.length_map, Nat.min_self]
    congr 1
    rcases h.1 with ⟨rfl, rfl⟩ | ⟨hk, hcode⟩
    · simp [Lexeme.token, SqlToken.isSemicolon, Lexeme.cls]
    · have htokens : (((k.token line).toList.map fun token => (offset, token)).filter (·.2.isSemicolon)) = [] := by
        rw [List.filter_eq_nil_iff]
        intro y hy
        obtain ⟨token, htoken, rfl⟩ := List.mem_map.mp hy
        simp [not_isSemicolon hk line token htoken]
      have hchars : (((t.zip (t.map fun _ => k.cls)).zipIdx offset).filter fun x => x.1 = (';', Postgres.Class.code)) = [] := by
        rw [List.filter_eq_nil_iff]
        rintro ⟨⟨ch, cls⟩, i⟩ hy
        have hmem := List.of_mem_zip (List.fst_mem_of_mem_zipIdx hy)
        obtain ⟨_, _, rfl⟩ := List.mem_map.mp hmem.2
        simp only [Prod.mk.injEq, decide_eq_true_eq, not_and]
        rintro rfl
        exact fun e => hcode e hmem.1
      rw [htokens, hchars]
      rfl

theorem lexemes_text (text : List Char) : (lexemes text).flatMap (·.2) = text := by
  refine Scan.scan_text (fun c rest => ?_) text
  simp [lexRule]

/-- `statementsOf` ends its statements at the semicolons the tokenizer reads as code. -/
theorem statementEnds_eq (text : List Char) : statementEnds text = Postgres.codeSemicolons text (classes text) := by
  have hends := placed_ends 0 1 (lexemes text) (fun _ => lexemes_apart)
  rw [lexemes_text] at hends
  exact hends

/-- The semicolons among the first characters. -/
theorem codeSemicolons_front {known all : List Postgres.Class} (h : known <+: all) :
    (Postgres.codeSemicolons text all).filter (· < known.length) = Postgres.codeSemicolons text known := by
  obtain ⟨later, rfl⟩ := h
  have fromOffset : ∀ (known : List Postgres.Class) (text : List Char) (k : Nat),
      (((((text.zip (known ++ later)).zipIdx k).filter fun x => x.1 = (';', Postgres.Class.code)).map (·.2)).filter
          (· < k + known.length)) =
        (((text.zip known).zipIdx k).filter fun x => x.1 = (';', Postgres.Class.code)).map (·.2) := by
    intro known
    induction known with
    | nil =>
      intro text k
      simp only [List.nil_append, List.length_nil, Nat.add_zero, List.zip_nil_right, List.zipIdx_nil, List.filter_nil,
        List.map_nil, List.filter_eq_nil_iff, decide_eq_true_eq, Nat.not_lt]
      intro i hi
      obtain ⟨⟨_, j⟩, hj, rfl⟩ := List.mem_map.mp hi
      exact List.le_snd_of_mem_zipIdx (List.mem_filter.mp hj).1
    | cons cls known ih =>
      intro text k
      cases text with
      | nil => simp
      | cons c text =>
        have hlater := ih text (k + 1)
        rw [show k + 1 + known.length = k + (known.length + 1) by omega] at hlater
        simp only [List.cons_append, List.zip_cons_cons, List.zipIdx_cons, List.length_cons]
        by_cases hc : (c, cls) = (';', Postgres.Class.code)
        · simp [hc, hlater]
        · simp [hc, hlater]
  have := fromOffset known text 0
  rwa [Nat.zero_add] at this

/-! ## Statements -/

theorem placed_tokens (offset line : Nat) (ls : Lexemes) : (placed offset line ls).map (·.2) = (lexFrom line ls).tokens := by
  induction ls generalizing offset line with
  | nil => rfl
  | cons x ls ih =>
    simp only [placed, lexFrom, List.map_append, List.map_map, ih]
    simp [Function.comp_def]

/-- Each token starts behind the one before it. -/
theorem placed_ordered (offset line : Nat) (ls : Lexemes) (h : ∀ x ∈ ls, x.2 ≠ []) :
    (∀ x ∈ placed offset line ls, offset ≤ x.1) ∧ (placed offset line ls).Pairwise (·.1 < ·.1) := by
  induction ls generalizing offset line with
  | nil => exact ⟨(fun _ hx => nomatch hx), .nil⟩
  | cons x ls ih =>
    simp only [List.mem_cons, forall_eq_or_imp] at h
    obtain ⟨hle, hpairs⟩ := ih (offset + x.2.length) (line + x.2.count '\n') h.2
    have hpos : 0 < x.2.length := List.length_pos_iff.mpr h.1
    have hhead : ∀ y ∈ (x.1.kind.token line).toList.map (fun token => (offset, token)), y.1 = offset := by
      intro y hy
      obtain ⟨_, _, rfl⟩ := List.mem_map.mp hy
      rfl
    constructor
    · intro y hy
      rcases List.mem_append.mp hy with hy | hy
      · exact Nat.le_of_eq (hhead y hy).symm
      · exact Nat.le_trans (by omega) (hle y hy)
    · refine List.pairwise_append.mpr ⟨?_, hpairs, ?_⟩
      · cases x.1.kind.token line <;> simp
      · intro y hy z hz
        rw [hhead y hy]
        have := hle z hz
        omega

theorem statementsFrom_eq (current all : List SqlToken) :
    statementsFrom current all =
      ((all.splitOnP SqlToken.isSemicolon).modifyHead (current ++ ·)).flatMap closeStatement := by
  induction all generalizing current with
  | nil => simp [statementsFrom, List.splitOnP_nil]
  | cons token rest ih =>
    rw [statementsFrom, List.splitOnP_cons_eq_if_modifyHead]
    split
    · rw [ih []]
      simp only [List.modifyHead_cons, List.append_nil, List.flatMap_cons]
      congr 2
      cases rest.splitOnP SqlToken.isSemicolon <;> rfl
    · rw [ih, List.modifyHead_modifyHead]
      simp only [Function.comp_def, List.append_assoc, List.cons_append, List.nil_append]

theorem splitOnP_map {α β : Type} (f : α → β) (p : β → Bool) (q : α → Bool) (l : List α) (h : ∀ x ∈ l, p (f x) = q x) :
    (l.map f).splitOnP p = (l.splitOnP q).map (·.map f) := by
  induction l with
  | nil => simp [List.splitOnP_nil]
  | cons x l ih =>
    simp only [List.mem_cons, forall_eq_or_imp] at h
    rw [List.map_cons, List.splitOnP_cons_eq_if_modifyHead, List.splitOnP_cons_eq_if_modifyHead, h.1, ih h.2]
    split
    · simp
    · cases l.splitOnP q <;> simp

/-- The statements of the text are its tokens cut at the ends. -/
theorem statementsOf_eq (text : List Char) :
    statementsOf (lexSql text).tokens = cutAt (statementEnds text) (placedTokens text) := by
  have hne : ∀ x ∈ lexemes text, x.2 ≠ [] := by
    intro x hx
    obtain ⟨c, rest, _, htext⟩ := Scan.scan_mem hx
    simp [htext]
  have hnodup : ((placedTokens text).map (·.1)).Nodup :=
    List.pairwise_map.mpr ((placed_ordered 0 1 (lexemes text) hne).2.imp Nat.ne_of_lt)
  have hsame : ∀ x ∈ placedTokens text, x.2.isSemicolon = (statementEnds text).contains x.1 := by
    intro x hx
    rw [Bool.eq_iff_iff, List.contains_iff_mem, statementEnds, List.mem_map]
    constructor
    · intro hsemi
      exact ⟨x, List.mem_filter.mpr ⟨hx, hsemi⟩, rfl⟩
    · rintro ⟨y, hy, heq⟩
      obtain ⟨hy, hsemi⟩ := List.mem_filter.mp hy
      obtain rfl : y = x := List.inj_on_of_nodup_map hnodup hy hx heq
      exact hsemi
  have htokens : (lexSql text).tokens = (placedTokens text).map (·.2) := (placed_tokens 0 1 _).symm
  have hblocks : ∀ blocks : List (List SqlToken), blocks.modifyHead ([] ++ ·) = blocks := by
    intro blocks
    cases blocks <;> rfl
  rw [statementsOf, statementsFrom_eq, hblocks, htokens, splitOnP_map _ _ _ _ hsame, List.flatMap_map, cutAt]

theorem filter_semicolons (hordinary : Postgres.ordinary text = true) :
    (statementEnds text).filter (· < (Postgres.classes text).length) = Postgres.semicolons text := by
  rw [statementEnds_eq]
  exact codeSemicolons_front ((classes_iff text).mpr hordinary)

theorem classes_of_readsAll (hordinary : Postgres.ordinary text = true) (hall : Postgres.readsAll text = true) :
    classes text = Postgres.classes text := by
  have htext : ((lexemes text).flatMap (·.2)).length = text.length := congrArg _ (lexemes_text text)
  have hlen : (classes text).length = text.length := by
    rw [← htext]
    simp [classes, Scan.marks, lexemes, List.length_flatMap]
  have hknown : (Postgres.classes text).length = text.length := by simpa [Postgres.readsAll] using hall
  exact (((classes_iff text).mpr hordinary).eq_of_length (hknown.trans hlen.symm)).symm

end Texts

/-! ## The tokenizer and the scanner -/

/-- The tokenizer reads a text as Postgres does exactly when the scanner meets ordinary tokens only. -/
theorem readsAsPostgres_iff (text : List Char) : ReadsAsPostgres text ↔ Postgres.ordinary text = true := by
  constructor
  · intro h
    exact (classes_iff text).mp h.classes
  · intro hordinary
    refine ⟨(classes_iff text).mpr hordinary, ?_, filter_semicolons hordinary, ?_⟩
    · intro hall
      rw [lexSql, lexFrom_unterminated, unterminated_iff hordinary hall]
    · intro hall
      rw [statementsOf_eq, statementEnds_eq, classes_of_readsAll hordinary hall, Postgres.semicolons]

/-- Postgres ends the statement behind the constant and runs another; the tokenizer reads both into a string. -/
theorem a_continued_escape_hides_a_statement : ¬∀ text, ReadsAsPostgres text := by
  intro h
  have hends := (h "select E'a'\n'\\''; drop table t; --'".toList).ends
  exact absurd hends (by decide)

end Fabrika.Platform.MigrationSql
