/-
  Fabrika.Db.SqlTemplateProofs — which placeholders of a template the tokenizer of its dialect reads
  as parameters, and which value each of an expanded template binds.

  Proved: an accepted template has each placeholder at code level, and no other parameter, exactly
  when no marker token of the statement is parted from a digit token behind it
  (`bound_iff`); and an expanded template reads as the original with each fragment's predicate in
  its place, its values numbered in order (`spliced`).
-/

import Fabrika.Db.SqlTemplate
import Fabrika.Platform.MigrationSqlProofs
import Mathlib.Data.List.Sort

namespace Fabrika.Db.SqlTemplate

open Fabrika.Lib Fabrika.Platform Fabrika.Platform.MigrationSql
open Fabrika.Db.Scope (SqlDialect ScopeTerms ScopeTest TestValue)

/-! ## What is stated of the placeholders -/

/-- The parts behind the first, each after its placeholder. -/
def joinFrom (marker : Char) : Nat → Parts → List Char
  | _, [] => []
  | index, part :: rest => marker :: (decimal index ++ (part ++ joinFrom marker (index + 1) rest))

def joined (marker : Char) (parts : Parts) : List Char := parts.headD [] ++ joinFrom marker 1 parts.tail

/-- The placeholders from one on: the offset each starts at, and its number. -/
def placeholdersFrom : Nat → Nat → Parts → List (Nat × Nat)
  | _, _, [] => []
  | index, start, part :: rest =>
    (start, index) :: placeholdersFrom (index + 1) (start + 1 + (decimal index).length + part.length) rest

def placeholders (parts : Parts) : List (Nat × Nat) := placeholdersFrom 1 (parts.headD []).length parts.tail

abbrev Placed := List (Nat × SqlToken)

/-- The tokens of the statement with their offsets. -/
def tokensAt (dialect : SqlDialect) (parts : Parts) : Placed :=
  placed 0 1 (lexemesOf dialect (joined (markerOf dialect) parts))

/-- A token, with the one behind it, that marks a parameter: a `$` alone is none to Postgres. -/
def isParameter (dialect : SqlDialect) (token : SqlToken) (next : Option SqlToken) : Bool :=
  match dialect with
  | .postgres => isPunct (some token) '$' && isDigit next
  | .sqlite => sqliteParameterStarts.any (isPunct (some token))

def parameterOffsets (dialect : SqlDialect) : Placed → List Nat
  | [] => []
  | (offset, token) :: rest =>
    if isParameter dialect token (rest.head?.map (·.2)) then offset :: parameterOffsets dialect rest
    else parameterOffsets dialect rest

/-- Every placeholder is read at code level as its marker and its own number, and nothing else is a parameter. -/
structure Bound (dialect : SqlDialect) (parts : Parts) : Prop where
  text : statementText parts (markerOf dialect) = .ok (joined (markerOf dialect) parts)
  parameters : parameterOffsets dialect (tokensAt dialect parts) = (placeholders parts).map (·.1)
  numbers : ∀ offset number, (offset, number) ∈ placeholders parts → ∀ i char,
    (markerOf dialect :: decimal number)[i]? = some char → ∃ line, (offset + i, .punct char line) ∈ tokensAt dialect parts
  /-- No further digit joins the number. -/
  ends : ∀ offset number, (offset, number) ∈ placeholders parts → ∀ char line,
    (offset + 1 + (decimal number).length, .punct char line) ∈ tokensAt dialect parts → char.isDigit = false

/-- A marker token has a digit token next, and whitespace or a comment between the two. -/
def parted (marker : Char) : Placed → Bool
  | x :: y :: rest => (isPunct (some x.2) marker && isDigit (some y.2) && y.1 ≠ x.1 + 1) || parted marker (y :: rest)
  | _ => false

/-! ## Text -/

theorem statementFrom_ok {marker : Char} {index : Nat} {parts : Parts} {text : List Char}
    (h : statementFrom marker index parts = .ok text) :
    text = joinFrom marker index parts ∧ ∀ part ∈ parts, part.head?.any Char.isDigit = false := by
  induction parts generalizing index text with
  | nil =>
    cases h
    exact ⟨rfl, fun _ h => nomatch h⟩
  | cons part rest ih =>
    rw [statementFrom] at h
    split at h
    · cases h
    · next hdigit =>
      cases hlater : statementFrom marker (index + 1) rest with
      | error e =>
        rw [hlater] at h
        cases h
      | ok later =>
        rw [hlater] at h
        cases h
        obtain ⟨rfl, hrest⟩ := ih hlater
        refine ⟨by simp [joinFrom], ?_⟩
        intro p hp
        rcases List.mem_cons.mp hp with rfl | hp
        · exact Bool.eq_false_iff.mpr hdigit
        · exact hrest p hp

theorem statementText_ok {marker : Char} {parts : Parts} {text : List Char} (h : statementText parts marker = .ok text) :
    text = joined marker parts ∧ ∀ part ∈ parts.tail, part.head?.any Char.isDigit = false := by
  rw [statementText] at h
  cases hlater : statementFrom marker 1 parts.tail with
  | error e =>
    rw [hlater] at h
    cases h
  | ok later =>
    rw [hlater] at h
    cases h
    obtain ⟨rfl, hdigits⟩ := statementFrom_ok hlater
    exact ⟨rfl, hdigits⟩

theorem decimal_eq (number : Nat) : decimal number = Nat.toDigits 10 number := Nat.toList_repr

variable {c : Char}

theorem isDigit_decimal {number : Nat} (h : c ∈ decimal number) : c.isDigit = true := by
  rw [decimal_eq] at h
  exact Nat.isDigit_of_mem_toDigits (by decide) (by decide) h

theorem decimal_ne_nil (number : Nat) : decimal number ≠ [] := by
  rw [decimal_eq]
  exact Nat.toDigits_ne_nil

theorem written_append {marker d : Char} (hd : d.isDigit = true) (before after : List Char) :
    written marker (before ++ marker :: d :: after) = true := by
  induction before with
  | nil => simp [written, hd]
  | cons c before ih =>
    cases before with
    | nil => simp [written, hd]
    | cons c' before =>
      rw [List.cons_append] at ih
      simp [written, ih]

/-! ## Offsets -/

section Offsets

variable {marker : Char} {index start : Nat} {parts : Parts} {part : List Char}

theorem placeholdersFrom_length (index start : Nat) (parts : Parts) :
    (placeholdersFrom index start parts).length = parts.length := by
  induction parts generalizing index start with
  | nil => rfl
  | cons part rest ih => rw [placeholdersFrom, List.length_cons, List.length_cons, ih]

theorem placeholdersFrom_ordered (index start : Nat) (parts : Parts) :
    (∀ x ∈ placeholdersFrom index start parts, start ≤ x.1) ∧
      ((placeholdersFrom index start parts).map (·.1)).Pairwise (· < ·) := by
  induction parts generalizing index start with
  | nil => exact ⟨fun _ h => (nomatch h), .nil⟩
  | cons part rest ih =>
    obtain ⟨hle, hpairs⟩ := ih (index + 1) (start + 1 + (decimal index).length + part.length)
    constructor
    · intro x hx
      rcases List.mem_cons.mp hx with rfl | hx
      · exact Nat.le_refl _
      · exact Nat.le_trans (by omega) (hle x hx)
    · rw [placeholdersFrom, List.map_cons, List.pairwise_cons]
      refine ⟨?_, hpairs⟩
      intro offset hoffset
      obtain ⟨x, hx, rfl⟩ := List.mem_map.mp hoffset
      have := hle x hx
      dsimp only
      omega

/-- A marker with a digit behind it, where no part writes one, is where a placeholder starts. -/
theorem placeholder_of_marker {d : Char} (hd : d.isDigit = true) (hmarker : marker.isDigit = false)
    (hpart : written marker part = false) (hparts : ∀ p ∈ parts, written marker p = false)
    {before after : List Char} (h : part ++ joinFrom marker index parts = before ++ marker :: d :: after) :
    start + before.length ∈ (placeholdersFrom index (start + part.length) parts).map (·.1) := by
  induction parts generalizing index start part before with
  | nil =>
    rw [joinFrom, List.append_nil] at h
    rw [h, written_append hd] at hpart
    cases hpart
  | cons next rest ih =>
    simp only [List.mem_cons, forall_eq_or_imp] at hparts
    have hhere : start + part.length ∈ (placeholdersFrom index (start + part.length) (next :: rest)).map (·.1) := by
      simp [placeholdersFrom]
    have hlater : ∀ before', next ++ joinFrom marker (index + 1) rest = before' ++ marker :: d :: after →
        start + part.length + 1 + (decimal index).length + before'.length ∈
          (placeholdersFrom index (start + part.length) (next :: rest)).map (·.1) := by
      intro before' h'
      have hmem : start + part.length + 1 + (decimal index).length + before'.length ∈
          (placeholdersFrom (index + 1) (start + part.length + 1 + (decimal index).length + next.length) rest).map (·.1) :=
        ih hparts.1 hparts.2 h'
      exact List.mem_cons_of_mem _ hmem
    rw [joinFrom] at h
    rcases List.append_eq_append_iff.mp h with ⟨extra, rfl, htail⟩ | ⟨extra, rfl, htail⟩
    · -- The marker stands behind the part: at its end, or past the number.
      cases extra with
      | nil => simpa using hhere
      | cons e extra =>
        obtain ⟨rfl, hnext⟩ := List.cons.inj htail
        rcases List.append_eq_append_iff.mp hnext with ⟨extra', rfl, hrest⟩ | ⟨extra', hnumber, hrest⟩
        · have := hlater extra' hrest
          simp only [List.length_append, List.length_cons]
          rwa [show start + (part.length + ((decimal index).length + extra'.length + 1)) =
            start + part.length + 1 + (decimal index).length + extra'.length by omega]
        · cases extra' with
          | nil =>
            have := hlater [] hrest.symm
            rw [List.append_nil] at hnumber
            rw [hnumber] at this
            simp only [List.length_append, List.length_cons]
            rwa [show start + (part.length + (extra.length + 1)) = start + part.length + 1 + extra.length +
              ([] : List Char).length by
              rw [List.length_nil]; omega]
          | cons e' extra' =>
            obtain ⟨rfl, _⟩ := List.cons.inj hrest
            have hmem : marker ∈ decimal index := by simp [hnumber]
            exact absurd ((isDigit_decimal hmem).symm.trans hmarker) (by decide)
    · -- The marker stands in the part: at its very end its digit would be a marker.
      cases extra with
      | nil => simpa using hhere
      | cons e extra =>
        obtain ⟨rfl, hnext⟩ := List.cons.inj htail
        cases extra with
        | nil =>
          obtain ⟨rfl, _⟩ := List.cons.inj hnext
          exact absurd (hd.symm.trans hmarker) (by decide)
        | cons e' extra =>
          obtain ⟨rfl, _⟩ := List.cons.inj hnext
          rw [written_append hd] at hpart
          cases hpart

theorem joinFrom_head (hmarker : marker.isDigit = false) (index : Nat) (parts : Parts) :
    (joinFrom marker index parts).head?.any Char.isDigit = false := by
  cases parts with
  | nil => rfl
  | cons part rest => exact hmarker

/-- Where a placeholder starts, the text has the marker and the number, and no digit behind them. -/
theorem text_at_placeholder (hdigits : ∀ p ∈ parts, p.head?.any Char.isDigit = false) {offset number : Nat}
    (hmarker : marker.isDigit = false)
    (h : (offset, number) ∈ placeholdersFrom index (start + part.length) parts) :
    ∃ before later, part ++ joinFrom marker index parts = before ++ marker :: (decimal number ++ later) ∧
      offset = start + before.length ∧ later.head?.any Char.isDigit = false := by
  induction parts generalizing index start part with
  | nil => cases h
  | cons next rest ih =>
    simp only [List.mem_cons, forall_eq_or_imp] at hdigits
    rcases List.mem_cons.mp h with e | h
    · cases e
      refine ⟨part, next ++ joinFrom marker (number + 1) rest, rfl, rfl, ?_⟩
      cases next with
      | nil => exact joinFrom_head hmarker _ rest
      | cons c next => exact hdigits.1
    · rw [show start + part.length + 1 + (decimal index).length + next.length =
        (start + part.length + 1 + (decimal index).length) + next.length by omega] at h
      obtain ⟨before, later, htext, hoffset, hlater⟩ := ih hdigits.2 h
      refine ⟨part ++ marker :: (decimal index ++ before), later, ?_, ?_, hlater⟩
      · rw [joinFrom, htext]
        simp
      · rw [hoffset]
        simp only [List.length_append, List.length_cons]
        omega

end Offsets

/-! ## Tokens -/

/-- What the two tokenizers share: they read any text, and a character or a digit at code level alone. -/
structure Tokenizer (rule : Scan.Rule Char Lexeme) : Prop where
  total : ∀ c rest, rule c rest ≠ none
  punct : ∀ {c x : Char} {rest : List Char} {p : Scan.Piece Lexeme}, rule c rest = some p → p.kind = .punct x → x = c ∧ p.more = 0
  digit : ∀ {c : Char} (rest : List Char), c.isDigit = true → rule c rest = some ⟨.punct c, 0⟩

theorem tokenizer_postgres : Tokenizer lexRule where
  total c rest := by simp [lexRule]
  punct := by
    intro c x rest p h hkind
    obtain rfl := Option.some.inj h
    exact lexAt_punct hkind
  digit := fun rest h => congrArg some (lexAt_single (single_of_isDigit h))

theorem tokenizer_sqlite : Tokenizer SqliteSql.lexRule where
  total c rest := by simp [SqliteSql.lexRule]
  punct := by
    intro c x rest p h hkind
    obtain rfl := Option.some.inj h
    generalize hpiece : SqliteSql.lexAt c rest = piece at hkind ⊢
    unfold SqliteSql.lexAt at hpiece
    dsimp only at hpiece
    repeat' split at hpiece
    all_goals
      subst hpiece
      first
      | exact ⟨(Lexeme.punct.inj hkind).symm, rfl⟩
      | cases hkind
  digit := by
    intro c rest h
    have hne : ∀ d : Char, d.isDigit = false → c ≠ d := by
      intro d hd e
      subst e
      exact absurd (h.symm.trans hd) (by decide)
    have hstart : SqliteSql.isWordStart c = false := by
      have hpostgres := not_identStart_of_isDigit h
      simp only [Postgres.identStart, Bool.or_eq_false_iff] at hpostgres
      simp only [SqliteSql.isWordStart, hpostgres.1.1, hpostgres.1.2, hpostgres.2, Bool.false_and, Bool.or_false]
    have hspace : SqliteSql.isSpace c = false := by
      simp [SqliteSql.isSpace, SqliteSql.byteOrderMark, hne ' ' rfl, hne '\t' rfl, hne '\n' rfl, hne '\r' rfl, hne '\x0c' rfl,
        hne '\x0b' rfl, hne '\ufeff' rfl]
    simp [SqliteSql.lexRule, SqliteSql.lexAt, hspace, hstart, hne '-' rfl, hne '/' rfl, hne '\'' rfl, hne '"' rfl, hne '\x60' rfl,
      hne '[' rfl]

section Tokens

variable {rule : Scan.Rule Char Lexeme} {offset line : Nat} {text : List Char}

theorem placed_cons {rest : List Char} {p : Scan.Piece Lexeme} (h : rule c rest = some p) :
    placed offset line (Scan.scan rule (c :: rest)) =
      ((p.kind.token line).toList.map fun token => (offset, token)) ++
        placed (offset + (c :: rest.take p.more).length) (line + (c :: rest.take p.more).count '\n')
          (Scan.scan rule (rest.drop p.more)) := by
  rw [Scan.scan_cons h]
  rfl

/-- A punctuation token is a character of the text, and the tokens behind it are those of what follows. -/
theorem punct_split (hrule : Tokenizer rule) {o l : Nat}
    (h : (o, SqlToken.punct c l) ∈ placed offset line (Scan.scan rule text)) :
    ∃ before later, text = before ++ c :: later ∧ o = offset + before.length ∧
      ∃ line', ∀ x ∈ placed (o + 1) line' (Scan.scan rule later), x ∈ placed offset line (Scan.scan rule text) := by
  generalize hn : text.length = n
  induction n using Nat.strongRecOn generalizing text offset line with
  | ind n ih =>
    cases text with
    | nil => cases h
    | cons a rest =>
      cases hpiece : rule a rest with
      | none => exact absurd hpiece (hrule.total a rest)
      | some p =>
        rw [placed_cons hpiece] at h ⊢
        rcases List.mem_append.mp h with h | h
        · obtain ⟨token, htoken, e⟩ := List.mem_map.mp h
          cases e
          have hkind : p.kind = .punct c := by
            cases hk : p.kind with
            | blank _ => simp [hk, Lexeme.token] at htoken
            | word _ | quoted _ _ | string _ _ | dollar _ _ => simp [hk, Lexeme.token] at htoken
            | punct c' =>
              simp only [hk, Lexeme.token, Option.toList_some, List.mem_singleton, SqlToken.punct.injEq] at htoken
              rw [htoken.1]
          obtain ⟨rfl, hmore⟩ := hrule.punct hpiece hkind
          refine ⟨[], rest, rfl, rfl, line + [c].count '\n', ?_⟩
          intro x hx
          apply List.mem_append_right
          rw [hmore]
          exact hx
        · have hlength : (rest.drop p.more).length < n := by
            rw [← hn, List.length_cons, List.length_drop]
            omega
          obtain ⟨before, later, htext, ho, line', hlater⟩ := ih _ hlength h rfl
          refine ⟨a :: rest.take p.more ++ before, later, ?_, ?_, line', ?_⟩
          · rw [List.append_assoc, ← htext, List.cons_append, List.take_append_drop]
          · rw [ho, List.length_append]
            omega
          · intro x hx
            exact List.mem_append_right _ (hlater x hx)

/-- Digits where the loop stands are tokens of their own. -/
theorem digits_placed (hrule : Tokenizer rule) {ds later : List Char} (hds : ∀ c ∈ ds, c.isDigit = true) {i : Nat}
    (h : ds[i]? = some c) : ∃ l, (offset + i, SqlToken.punct c l) ∈ placed offset line (Scan.scan rule (ds ++ later)) := by
  induction ds generalizing offset line i with
  | nil => cases h
  | cons d ds ih =>
    simp only [List.mem_cons, forall_eq_or_imp] at hds
    rw [List.cons_append, placed_cons (hrule.digit (ds ++ later) hds.1)]
    cases i with
    | zero =>
      cases h
      exact ⟨line, List.mem_append_left _ (by simp [Lexeme.token])⟩
    | succ i =>
      have hlater : ∃ l, (offset + 1 + i, SqlToken.punct c l) ∈
          placed (offset + 1) (line + [d].count '\n') (Scan.scan rule (ds ++ later)) := ih hds.2 h
      obtain ⟨l, hl⟩ := hlater
      refine ⟨l, List.mem_append_right _ ?_⟩
      rw [Nat.add_assoc, Nat.add_comm 1 i] at hl
      exact hl

theorem scan_ordered (rule : Scan.Rule Char Lexeme) (offset line : Nat) (text : List Char) :
    (placed offset line (Scan.scan rule text)).Pairwise (·.1 < ·.1) := by
  refine (placed_ordered offset line _ ?_).2
  intro x hx
  obtain ⟨c, rest, _, htext⟩ := Scan.scan_mem hx
  simp [htext]

end Tokens

/-! ## Parameters -/

section Parameters

variable {dialect : SqlDialect} {toks : Placed}

/-- Two tokens next to each other. -/
def Next (x y : Nat × SqlToken) (toks : Placed) : Prop := [x, y] <:+: toks

variable {x y : Nat × SqlToken}

theorem next_cons_iff {x y z : Nat × SqlToken} :
    Next x y (z :: toks) ↔ (x = z ∧ toks.head? = some y) ∨ Next x y toks := by
  rw [Next, List.infix_cons_iff, List.cons_prefix_cons]
  refine or_congr_left (and_congr_right fun _ => ?_)
  cases toks with
  | nil => simp
  | cons t toks => simp [List.cons_prefix_cons, eq_comm]

theorem Next.mem (h : Next x y toks) : x ∈ toks ∧ y ∈ toks :=
  ⟨h.subset (by simp), h.subset (by simp)⟩

theorem parted_iff (marker : Char) (toks : Placed) :
    parted marker toks = true ↔ ∃ x y, Next x y toks ∧ isPunct (some x.2) marker = true ∧ isDigit (some y.2) = true ∧
      y.1 ≠ x.1 + 1 := by
  fun_induction parted marker toks with
  | case1 x y rest ih =>
    rw [Bool.or_eq_true, ih]
    simp only [Bool.and_eq_true, decide_eq_true_eq, ne_eq]
    constructor
    · rintro (⟨⟨hx, hy⟩, hne⟩ | ⟨x', y', hnext, h⟩)
      · exact ⟨x, y, (next_cons_iff).mpr (.inl ⟨rfl, rfl⟩), hx, hy, hne⟩
      · exact ⟨x', y', (next_cons_iff).mpr (.inr hnext), h⟩
    · rintro ⟨x', y', hnext, hx, hy, hne⟩
      rcases (next_cons_iff).mp hnext with ⟨rfl, hsecond⟩ | hlater
      · cases hsecond
        exact .inl ⟨⟨hx, hy⟩, hne⟩
      · exact .inr ⟨x', y', hlater, hx, hy, hne⟩
  | case2 toks hshort =>
    refine iff_of_false Bool.false_ne_true ?_
    rintro ⟨x, y, hnext, _⟩
    have hle := hnext.length_le
    rcases toks with _ | ⟨t, _ | ⟨t', rest⟩⟩
    · cases hle
    · simp at hle
    · exact hshort t t' rest rfl

theorem next_lt (hordered : toks.Pairwise (·.1 < ·.1)) (h : Next x y toks) : x.1 < y.1 := by
  have := hordered.sublist h.sublist
  simpa using this

/-- No token stands between two that are next to each other. -/
theorem next_le {x y z : Nat × SqlToken} (hordered : toks.Pairwise (·.1 < ·.1)) (h : Next x y toks) (hz : z ∈ toks)
    (hlt : x.1 < z.1) : y.1 ≤ z.1 := by
  obtain ⟨front, later, rfl⟩ := h
  simp only [List.append_assoc, List.cons_append, List.nil_append, List.mem_append, List.mem_cons] at hz hordered
  obtain ⟨_, hback, hfront⟩ := List.pairwise_append.mp hordered
  have hlater := (List.pairwise_cons.mp (List.pairwise_cons.mp hback).2).1
  rcases hz with hz | rfl | rfl | hz
  · have := hfront z hz x (by simp)
    omega
  · omega
  · exact Nat.le_refl _
  · exact Nat.le_of_lt (hlater z hz)

theorem isParameter_of_marker {token : SqlToken} {next : Option SqlToken}
    (hmarker : isPunct (some token) (markerOf dialect) = true)
    (hdigit : isDigit next = true) : isParameter dialect token next = true := by
  cases dialect with
  | postgres => simp only [isParameter, hdigit, Bool.and_true]; exact hmarker
  | sqlite => exact List.any_eq_true.mpr ⟨'?', by decide, hmarker⟩

theorem mem_parameterOffsets (h : Next x y toks) (hmarker : isPunct (some x.2) (markerOf dialect) = true)
    (hdigit : isDigit (some y.2) = true) : x.1 ∈ parameterOffsets dialect toks := by
  induction toks with
  | nil => cases List.infix_nil.mp h
  | cons z rest ih =>
    obtain ⟨o, token⟩ := z
    rw [parameterOffsets]
    rcases (next_cons_iff).mp h with ⟨rfl, hsecond⟩ | hlater
    · have hnext : (rest.head?.map (·.2)) = some y.2 := by
        rw [hsecond]
        rfl
      rw [hnext, if_pos (isParameter_of_marker hmarker hdigit)]
      exact List.mem_cons_self
    · have := ih hlater
      split
      · exact List.mem_cons_of_mem _ this
      · exact this

theorem parameterOffsets_sublist (dialect : SqlDialect) (toks : Placed) :
    (parameterOffsets dialect toks).Sublist (toks.map (·.1)) := by
  induction toks with
  | nil => exact .slnil
  | cons x rest ih =>
    rw [parameterOffsets, List.map_cons]
    split
    · exact ih.cons_cons _
    · exact ih.cons _

/-- A token the loop passes without counting it marks no parameter. -/
theorem countPlaced_pass {placed n : Nat} {token : SqlToken} {rest : List SqlToken}
    (hpair : (isPunct (some token) (markerOf dialect) && isDigit rest.head?) = false)
    (h : countPlaced dialect placed (token :: rest) = .ok n) :
    isParameter dialect token rest.head? = false ∧ countPlaced dialect placed rest = .ok n := by
  unfold countPlaced at h
  rw [hpair, if_neg Bool.false_ne_true] at h
  cases token with
  | punct c line =>
    dsimp only at h
    split at h
    · cases h
    · next hstart =>
      refine ⟨?_, h⟩
      cases dialect with
      | postgres => exact hpair
      | sqlite =>
        rw [isParameter, List.any_eq_false]
        intro start hmem
        simp only [isPunct, decide_eq_true_eq]
        rintro rfl
        exact hstart ⟨rfl, List.contains_iff_mem.mpr hmem⟩
  | word _ _ | quoted _ _ | string _ _ | dollar _ _ =>
    refine ⟨?_, h⟩
    cases dialect <;> simp [isParameter, isPunct]

/-- What the count says of the parameters: there are as many, each a marker before a digit. -/
theorem countPlaced_ok {placed n : Nat} (h : countPlaced dialect placed (toks.map (·.2)) = .ok n) :
    placed + (parameterOffsets dialect toks).length = n ∧ ∀ offset ∈ parameterOffsets dialect toks, ∃ x y, Next x y toks ∧
      x.1 = offset ∧ isPunct (some x.2) (markerOf dialect) = true ∧ isDigit (some y.2) = true := by
  induction toks generalizing placed with
  | nil =>
    cases h
    exact ⟨rfl, fun _ h => nomatch h⟩
  | cons x rest ih =>
    obtain ⟨offset, token⟩ := x
    rw [List.map_cons] at h
    have hhead : (rest.map (·.2)).head? = rest.head?.map (·.2) := List.head?_map
    rw [parameterOffsets]
    cases hpair : isPunct (some token) (markerOf dialect) && isDigit (rest.map (·.2)).head? with
    | true =>
      have hcount : countPlaced dialect placed (token :: rest.map (·.2)) = countPlaced dialect (placed + 1) (rest.map (·.2)) := by
        conv_lhs => unfold countPlaced
        rw [if_pos hpair]
      rw [hcount] at h
      obtain ⟨hlength, hall⟩ := ih h
      rw [Bool.and_eq_true, hhead] at hpair
      rw [if_pos (isParameter_of_marker hpair.1 hpair.2)]
      refine ⟨by rw [List.length_cons]; omega, ?_⟩
      intro o ho
      rcases List.mem_cons.mp ho with rfl | ho
      · cases hnext : rest.head? with
        | none => simp [hnext, isDigit] at hpair
        | some y =>
          rw [hnext] at hpair
          exact ⟨(o, token), y, (next_cons_iff).mpr (.inl ⟨rfl, hnext⟩), rfl, hpair.1, hpair.2⟩
      · obtain ⟨x, y, hnext, hrest⟩ := hall o ho
        exact ⟨x, y, (next_cons_iff).mpr (.inr hnext), hrest⟩
    | false =>
      obtain ⟨hparameter, hcount⟩ := countPlaced_pass hpair h
      obtain ⟨hlength, hall⟩ := ih hcount
      rw [← hhead, hparameter, if_neg Bool.false_ne_true]
      refine ⟨hlength, ?_⟩
      intro o ho
      obtain ⟨x, y, hnext, hrest⟩ := hall o ho
      exact ⟨x, y, (next_cons_iff).mpr (.inr hnext), hrest⟩

end Parameters

/-! ## Accepted templates -/

section Accepted

variable {dialect : SqlDialect} {parts : Parts}

/-- What `placedTokens` has checked of the templates it accepts. -/
structure Accepted (dialect : SqlDialect) (parts : Parts) : Prop where
  written : ∀ part ∈ parts, written (markerOf dialect) part = false
  digits : ∀ part ∈ parts.tail, part.head?.any Char.isDigit = false
  placed : countPlaced dialect 0 ((tokensAt dialect parts).map (·.2)) = .ok (parts.length - 1)
  nonempty : parts ≠ []
  text : statementText parts (markerOf dialect) = .ok (joined (markerOf dialect) parts)

theorem lexOf_tokens (dialect : SqlDialect) (parts : Parts) :
    (lexOf dialect (joined (markerOf dialect) parts)).tokens = (tokensAt dialect parts).map (·.2) := by
  rw [tokensAt, placed_tokens]
  cases dialect <;> rfl

theorem accepted_of_placedTokens {tokens : List SqlToken} (h : placedTokens parts dialect = .ok tokens) :
    Accepted dialect parts := by
  rw [placedTokens] at h
  split at h
  · cases h
  · next hwritten =>
    cases htext : statementText parts (markerOf dialect) with
    | error e =>
      rw [htext] at h
      cases h
    | ok text =>
      rw [htext] at h
      dsimp only [bind, Except.bind] at h
      obtain ⟨rfl, hdigits⟩ := statementText_ok htext
      rw [lexOf_tokens] at h
      split at h
      · cases h
      · cases hcount : countPlaced dialect 0 ((tokensAt dialect parts).map (·.2)) with
        | error e =>
          rw [hcount] at h
          cases h
        | ok n =>
          rw [hcount] at h
          dsimp only at h
          split at h
          · cases h
          · next hn =>
            have hn : n + 1 = parts.length := not_not.mp hn
            refine ⟨?_, hdigits, ?_, ?_, htext⟩
            · intro part hpart
              rw [Bool.not_eq_true, List.any_eq_false] at hwritten
              exact Bool.eq_false_iff.mpr (hwritten part hpart)
            · rw [← hn, hcount, Nat.add_sub_cancel]
            · rintro rfl
              cases hn

theorem tokenizer_of (dialect : SqlDialect) :
    ∃ rule, Tokenizer rule ∧ ∀ text, lexemesOf dialect text = Scan.scan rule text := by
  cases dialect with
  | postgres => exact ⟨_, tokenizer_postgres, fun _ => rfl⟩
  | sqlite => exact ⟨_, tokenizer_sqlite, fun _ => rfl⟩

theorem marker_not_digit (dialect : SqlDialect) : (markerOf dialect).isDigit = false := by
  cases dialect <;> rfl

theorem isPunct_some {token : SqlToken} (h : isPunct (some token) c = true) : ∃ line, token = .punct c line := by
  cases token with
  | punct c' line =>
    obtain rfl : c' = c := of_decide_eq_true h
    exact ⟨line, rfl⟩
  | _ => cases h

theorem isDigit_some {token : SqlToken} (h : isDigit (some token) = true) :
    ∃ c line, token = .punct c line ∧ c.isDigit = true := by
  cases token with
  | punct c line => exact ⟨c, line, rfl, h⟩
  | _ => cases h

/-- Where no marker is parted from a digit, the parameters are the placeholders. -/
theorem parameterOffsets_eq (h : Accepted dialect parts) (hparted : parted (markerOf dialect) (tokensAt dialect parts) = false) :
    parameterOffsets dialect (tokensAt dialect parts) = (placeholders parts).map (·.1) := by
  obtain ⟨rule, hrule, hlexemes⟩ := tokenizer_of dialect
  obtain ⟨hlength, hpairs⟩ := countPlaced_ok h.placed
  have htokens : tokensAt dialect parts = placed 0 1 (Scan.scan rule (joined (markerOf dialect) parts)) := by
    rw [tokensAt, hlexemes]
  have hordered : (parameterOffsets dialect (tokensAt dialect parts)).Pairwise (· < ·) := by
    refine List.Pairwise.sublist (parameterOffsets_sublist dialect _) (List.pairwise_map.mpr ?_)
    rw [htokens]
    exact scan_ordered rule 0 1 _
  have hplaces : ((placeholders parts).map (·.1)).Pairwise (· < ·) := (placeholdersFrom_ordered _ _ _).2
  have hsubset : parameterOffsets dialect (tokensAt dialect parts) ⊆ (placeholders parts).map (·.1) := by
    intro offset hoffset
    obtain ⟨⟨o, token⟩, ⟨o', token'⟩, hnext, rfl, hmarker, hdigit⟩ := hpairs offset hoffset
    have hbehind : o' = o + 1 := by
      by_contra hne
      rw [(parted_iff _ _).mpr ⟨_, _, hnext, hmarker, hdigit, hne⟩] at hparted
      cases hparted
    obtain ⟨line, rfl⟩ := isPunct_some hmarker
    obtain ⟨d, line', rfl, hd⟩ := isDigit_some hdigit
    rw [htokens] at hnext
    obtain ⟨before, later, htext, ho, _⟩ := punct_split hrule hnext.mem.1
    obtain ⟨before', later', htext', ho', _⟩ := punct_split hrule hnext.mem.2
    obtain ⟨_, hlater⟩ : before ++ [markerOf dialect] = before' ∧ later = d :: later' := by
      refine List.append_inj ?_ ?_
      · rw [← htext', htext, List.append_assoc, List.singleton_append]
      · rw [List.length_append, List.length_singleton]
        omega
    have hwritten : written (markerOf dialect) (parts.headD []) = false := by
      cases parts with
      | nil => exact absurd rfl h.nonempty
      | cons part rest => exact h.written part List.mem_cons_self
    have hplace : 0 + before.length ∈ (placeholdersFrom 1 (0 + (parts.headD []).length) parts.tail).map (·.1) :=
      placeholder_of_marker hd (marker_not_digit dialect) hwritten (fun p hp => h.written p (List.mem_of_mem_tail hp))
        (hlater ▸ htext)
    simp only [Nat.zero_add] at hplace ho
    rw [ho]
    exact hplace
  have hcount : ((placeholders parts).map (·.1)).length ≤ (parameterOffsets dialect (tokensAt dialect parts)).length := by
    rw [List.length_map, placeholders, placeholdersFrom_length, List.length_tail]
    omega
  have hperm := (List.subperm_of_subset (hordered.imp Nat.ne_of_lt) hsubset).perm_of_length_le hcount
  exact hperm.eq_of_pairwise (fun _ _ _ _ hab hba => absurd hab (Nat.lt_asymm hba)) hordered hplaces

theorem bound_of_not_parted (h : Accepted dialect parts) (hparted : parted (markerOf dialect) (tokensAt dialect parts) = false) :
    Bound dialect parts := by
  obtain ⟨rule, hrule, hlexemes⟩ := tokenizer_of dialect
  have hparameters := parameterOffsets_eq h hparted
  obtain ⟨_, hpairs⟩ := countPlaced_ok h.placed
  have htokens : tokensAt dialect parts = placed 0 1 (Scan.scan rule (joined (markerOf dialect) parts)) := by
    rw [tokensAt, hlexemes]
  -- A placeholder's marker is a token, and the text behind it is the number and what follows.
  have hmarker : ∀ offset number, (offset, number) ∈ placeholders parts → ∃ line line' later,
      (offset, SqlToken.punct (markerOf dialect) line) ∈ tokensAt dialect parts ∧
      (∀ x ∈ placed (offset + 1) line' (Scan.scan rule (decimal number ++ later)), x ∈ tokensAt dialect parts) ∧
      (∀ before c rest, joined (markerOf dialect) parts = before ++ c :: rest →
        before.length = offset + 1 + (decimal number).length → c.isDigit = false) := by
    intro offset number hmem
    have hoffset : offset ∈ parameterOffsets dialect (tokensAt dialect parts) := by
      rw [hparameters]
      exact List.mem_map.mpr ⟨_, hmem, rfl⟩
    obtain ⟨⟨o, token⟩, y, hnext, rfl, hpunct, _⟩ := hpairs offset hoffset
    obtain ⟨line, rfl⟩ := isPunct_some hpunct
    have htoken := hnext.mem.1
    rw [htokens] at htoken
    obtain ⟨before, rest, htext, ho, line', hlater⟩ := punct_split hrule htoken
    have hplaceholder : (o, number) ∈ placeholdersFrom 1 (0 + (parts.headD []).length) parts.tail := by
      rw [Nat.zero_add]
      exact hmem
    obtain ⟨front, later, hfront, ho', hend⟩ := text_at_placeholder h.digits (marker_not_digit dialect) hplaceholder
    obtain ⟨_, hrest⟩ : before = front ∧ markerOf dialect :: rest = markerOf dialect :: (decimal number ++ later) :=
      List.append_inj (htext.symm.trans hfront) (by omega)
    obtain ⟨_, rfl⟩ := List.cons.inj hrest
    refine ⟨line, line', later, hnext.mem.1, htokens ▸ hlater, ?_⟩
    intro before' c rest' hjoined hlength
    have hsplit : (front ++ markerOf dialect :: decimal number) ++ later = before' ++ c :: rest' := by
      rw [← hjoined, List.append_assoc, List.cons_append]
      exact hfront.symm
    obtain ⟨_, rfl⟩ := List.append_inj hsplit (by rw [List.length_append, List.length_cons]; omega)
    exact hend
  refine ⟨h.text, hparameters, ?_, ?_⟩
  · intro offset number hmem i c hc
    obtain ⟨line, line', later, htoken, hlater, _⟩ := hmarker offset number hmem
    cases i with
    | zero =>
      cases hc
      exact ⟨line, htoken⟩
    | succ i =>
      obtain ⟨l, hl⟩ := digits_placed hrule (fun _ => isDigit_decimal) hc
      refine ⟨l, hlater _ ?_⟩
      rw [show offset + (i + 1) = offset + 1 + i by omega]
      exact hl
  · intro offset number hmem c line hc
    obtain ⟨_, _, _, _, _, hends⟩ := hmarker offset number hmem
    rw [htokens] at hc
    obtain ⟨before, rest, htext, hbefore, _⟩ := punct_split hrule hc
    exact hends before c rest htext (by omega)

theorem not_parted_of_bound (h : Bound dialect parts) : parted (markerOf dialect) (tokensAt dialect parts) = false := by
  by_contra hparted
  rw [Bool.not_eq_false] at hparted
  obtain ⟨x, y, hnext, hmarker, hdigit, hne⟩ := (parted_iff _ _).mp hparted
  have hoffset := mem_parameterOffsets hnext hmarker hdigit
  rw [h.parameters] at hoffset
  obtain ⟨⟨offset, number⟩, hplaceholder, hsame⟩ := List.mem_map.mp hoffset
  obtain ⟨c, rest, hdecimal⟩ := List.exists_cons_of_ne_nil (decimal_ne_nil number)
  have hfirst : (markerOf dialect :: decimal number)[1]? = some c := by
    rw [hdecimal]
    rfl
  obtain ⟨line, hdigitToken⟩ := h.numbers offset number hplaceholder 1 c hfirst
  obtain ⟨rule, _, hlexemes⟩ := tokenizer_of dialect
  have hordered : (tokensAt dialect parts).Pairwise (·.1 < ·.1) := by
    rw [tokensAt, hlexemes]
    exact scan_ordered rule 0 1 _
  have hle := next_le hordered hnext hdigitToken (by dsimp only at hsame ⊢; omega)
  have hlt := next_lt hordered hnext
  dsimp only at hsame hle
  omega

/-- An accepted template is bound throughout exactly when no marker token is parted from a digit token behind it. -/
theorem bound_iff {tokens : List SqlToken} (h : placedTokens parts dialect = .ok tokens) :
    Bound dialect parts ↔ parted (markerOf dialect) (tokensAt dialect parts) = false :=
  ⟨not_parted_of_bound, bound_of_not_parted (accepted_of_placedTokens h)⟩

end Accepted

/-! ## Templates as read -/

section Reading

variable {S V P : Type}

/-- A text with values in their places. -/
abbrev Reading (P : Type) := List (Char ⊕ P)

def chars (text : List Char) : Reading P := text.map .inl

def boundOf (reading : Reading P) : List P := reading.filterMap Sum.getRight?

/-- The text with its values as placeholders, numbered from `index`. -/
def numbered (marker : Char) : Nat → Reading P → List Char
  | _, [] => []
  | index, .inl char :: rest => char :: numbered marker index rest
  | index, .inr _ :: rest => marker :: decimal index ++ numbered marker (index + 1) rest

def testReading (dialect : SqlDialect) (name : List Char) (test : ScopeTest) : Reading (Parameter V) :=
  let around := aroundValue dialect test.value
  chars (name ++ ['.'] ++ test.column.toList ++ around.1) ++ .inr (.test test.value) :: chars around.2

def groupReading (dialect : SqlDialect) (name : List Char) (tests : List ScopeTest) : Reading (Parameter V) :=
  chars ['('] ++ List.intercalate (chars " and ".toList) (tests.map (testReading dialect name)) ++ chars [')']

/-- The predicate of the terms: an OR of AND groups, each value at its own column. -/
def predicate (dialect : SqlDialect) (name : List Char) : ScopeTerms → Reading (Parameter V)
  | .all => chars "(true)".toList
  | .groups [] => chars "(false)".toList
  | .groups groups =>
    chars ['('] ++ List.intercalate (chars " or ".toList) (groups.map (groupReading dialect name)) ++ chars [')']

def interpolated (dialect : SqlDialect) : Interpolation S V → Reading (Parameter V)
  | .value value => [.inr (.given value)]
  | .scope _ name terms => predicate dialect name terms

/-- Each interpolation with the part behind it. -/
def readFrom (dialect : SqlDialect) : Parts → List (Interpolation S V) → Reading (Parameter V)
  | _, [] => []
  | parts, value :: values => interpolated dialect value ++ chars (parts.headD []) ++ readFrom dialect parts.tail values

/-- The template as its author wrote it, each fragment's predicate in its place. -/
def templateReading (dialect : SqlDialect) (parts : Parts) (values : List (Interpolation S V)) : Reading (Parameter V) :=
  chars (parts.headD []) ++ readFrom dialect parts.tail values

/-- The expanded template is the template read, its `k`-th placeholder the number of its `k`-th value. -/
structure Spliced (dialect : SqlDialect) (parts : Parts) (values : List (Interpolation S V)) (out : Template V) : Prop where
  lengths : out.parts.length = out.values.length + 1
  text : ∀ text, statementText out.parts (markerOf dialect) = .ok text →
    text = numbered (markerOf dialect) 1 (templateReading dialect parts values)
  values : out.values = boundOf (templateReading dialect parts values)

/-! ## Parts and values -/

/-- Parts with their values between them. -/
def reading : Parts → List P → Reading P
  | [], _ => []
  | part :: _, [] => chars part
  | part :: parts, value :: values => chars part ++ .inr value :: reading parts values

theorem chars_append (text text' : List Char) : (chars (text ++ text') : Reading P) = chars text ++ chars text' :=
  List.map_append

variable {parts : Parts} {values : List P}

theorem reading_addText (h : parts.length = values.length) (part text : List Char) :
    reading (parts ++ [part ++ text]) values = reading (parts ++ [part]) values ++ chars text := by
  induction parts generalizing values with
  | nil =>
    obtain rfl := List.length_eq_zero_iff.mp h.symm
    exact chars_append part text
  | cons first parts ih =>
    cases values with
    | nil => cases h
    | cons value values =>
      simp only [List.cons_append, reading, ih (Nat.succ.inj h), List.append_assoc]

theorem reading_push (h : parts.length = values.length) (last part : List Char) (value : P) :
    reading (parts ++ [last] ++ [part]) (values ++ [value]) = reading (parts ++ [last]) values ++ .inr value :: chars part := by
  induction parts generalizing values with
  | nil =>
    obtain rfl := List.length_eq_zero_iff.mp h.symm
    rfl
  | cons first parts ih =>
    cases values with
    | nil => cases h
    | cons value' values =>
      have hlater := ih (Nat.succ.inj h)
      rw [List.cons_append, List.cons_append, List.cons_append, reading, reading, hlater, List.append_assoc, List.cons_append]

theorem boundOf_reading (h : parts.length = values.length + 1) : boundOf (reading parts values) = values := by
  have hchars : ∀ text : List Char, boundOf (chars text : Reading P) = [] := by
    intro text
    simp [boundOf, chars]
  induction parts generalizing values with
  | nil => cases h
  | cons part parts ih =>
    cases values with
    | nil => exact hchars part
    | cons value values =>
      have hlater := ih (Nat.succ.inj h)
      simp only [boundOf] at hchars hlater ⊢
      rw [reading, List.filterMap_append, hchars, List.nil_append, List.filterMap_cons, hlater]
      rfl

theorem numbered_chars (marker : Char) (index : Nat) (text : List Char) (rest : Reading P) :
    numbered marker index (chars text ++ rest) = text ++ numbered marker index rest := by
  induction text with
  | nil => rfl
  | cons c text ih => exact congrArg (c :: ·) ih

/-- The statement's text is the reading with its values numbered. -/
theorem joined_reading (marker : Char) (h : parts.length = values.length + 1) :
    joined marker parts = numbered marker 1 (reading parts values) := by
  have hfrom : ∀ (index : Nat) (parts : Parts) (values : List P) (part : List Char), parts.length = values.length →
      part ++ joinFrom marker index parts = numbered marker index (reading (part :: parts) values) := by
    intro index parts
    induction parts generalizing index with
    | nil =>
      intro values part h
      obtain rfl := List.length_eq_zero_iff.mp h.symm
      rw [reading, joinFrom, ← List.append_nil (chars part), numbered_chars]
      rfl
    | cons next rest ih =>
      intro values part h
      cases values with
      | nil => cases h
      | cons value values =>
        rw [reading, numbered_chars, numbered, joinFrom, ih (index + 1) values next (Nat.succ.inj h), List.cons_append]
  cases parts with
  | nil => cases h
  | cons part rest => exact hfrom 1 rest values part (Nat.succ.inj h)

/-! ## Fragments -/

/-- What the loops write of a list, a separator before each entry but the first. -/
def listed {α : Type} (separator : List α) (first : Bool) : List (List α) → List α
  | [] => []
  | entry :: rest => (if first then [] else separator) ++ entry ++ listed separator false rest

theorem listed_eq_intercalate {α : Type} (separator : List α) (entries : List (List α)) :
    listed separator true entries = List.intercalate separator entries := by
  have hfalse : ∀ entries : List (List α), entries ≠ [] →
      listed separator false entries = separator ++ List.intercalate separator entries := by
    intro entries
    induction entries with
    | nil => exact fun h => absurd rfl h
    | cons entry rest ih =>
      intro _
      cases rest with
      | nil => simp [listed]
      | cons next rest =>
        rw [listed, ih (List.cons_ne_nil _ _), List.intercalate_cons_cons, if_neg Bool.false_ne_true]
        simp only [List.append_assoc]
  cases entries with
  | nil => rfl
  | cons entry rest =>
    cases rest with
    | nil => simp [listed]
    | cons next rest =>
      rw [listed, hfalse _ (List.cons_ne_nil _ _), List.intercalate_cons_cons, if_pos rfl]
      simp only [List.nil_append, List.append_assoc]

def Fragment.reading (fragment : Fragment) : Reading (Parameter V) :=
  SqlTemplate.reading (fragment.parts ++ [fragment.text]) (fragment.values.map .test)

/-- A fragment has a value after each of its parts. -/
def Fragment.Even (fragment : Fragment) : Prop := fragment.parts.length = fragment.values.length

/-- What a loop of the fragment does: it keeps the parts even with the values and writes `added` behind the rest. -/
structure Writes (before after : Fragment) (added : Reading (Parameter V)) : Prop where
  even : after.Even
  reading : after.reading = before.reading ++ added

variable {fragment middle later : Fragment} (name : List Char) (dialect : SqlDialect)

theorem Writes.trans {added added' : Reading (Parameter V)} (h : Writes fragment middle added) (h' : Writes middle later added') :
    Writes fragment later (added ++ added') :=
  ⟨h'.even, by rw [h'.reading, h.reading, List.append_assoc]⟩

theorem Writes.refl (h : fragment.Even) : Writes fragment fragment ([] : Reading (Parameter V)) :=
  ⟨h, (List.append_nil _).symm⟩

theorem addText_writes (h : fragment.Even) (text : List Char) :
    Writes fragment (fragment.addText text) (chars text : Reading (Parameter V)) :=
  ⟨h, reading_addText (by rw [List.length_map]; exact h) fragment.text text⟩

theorem addTest_writes (h : fragment.Even) (first : Bool) (test : ScopeTest) :
    Writes fragment (fragment.addTest name dialect first test)
      ((if first then [] else chars " and ".toList) ++ testReading dialect name test : Reading (Parameter V)) := by
  constructor
  · rw [Fragment.Even, Fragment.addTest, List.length_append, List.length_append, h, List.length_singleton, List.length_singleton]
  · have hlength : fragment.parts.length = (fragment.values.map (Parameter.test (V := V))).length := by
      rw [List.length_map]
      exact h
    have htext : fragment.text ++ (if first then [] else " and ".toList) ++ name ++ ['.'] ++ test.column.toList ++
        (aroundValue dialect test.value).1 = fragment.text ++ ((if first then [] else " and ".toList) ++
          (name ++ ['.'] ++ test.column.toList ++ (aroundValue dialect test.value).1)) := by
      simp only [List.append_assoc]
    have hseparator : (chars (if first then [] else " and ".toList) : Reading (Parameter V)) =
        if first then [] else chars " and ".toList := by
      cases first <;> rfl
    rw [Fragment.reading, Fragment.addTest, List.map_append, List.map_singleton, reading_push hlength, htext,
      reading_addText hlength, chars_append, hseparator, testReading]
    simp only [Fragment.reading, List.append_assoc]

theorem addTests_writes (h : fragment.Even) (first : Bool) (tests : List ScopeTest) :
    Writes fragment (fragment.addTests name dialect first tests)
      (listed (chars " and ".toList) first (tests.map (testReading dialect name)) : Reading (Parameter V)) := by
  induction tests generalizing fragment first with
  | nil => exact .refl h
  | cons test rest ih =>
    have htest := addTest_writes (V := V) name dialect h first test
    exact htest.trans (ih htest.even false)

theorem addGroups_writes (h : fragment.Even) (first : Bool) (groups : List (List ScopeTest)) :
    Writes fragment (fragment.addGroups name dialect first groups)
      (listed (chars " or ".toList) first (groups.map (groupReading dialect name)) : Reading (Parameter V)) := by
  induction groups generalizing fragment first with
  | nil => exact .refl h
  | cons group rest ih =>
    have hseparator : (chars ((if first then [] else " or ".toList) ++ ['(']) : Reading (Parameter V)) =
        (if first then [] else chars " or ".toList) ++ chars ['('] := by
      cases first <;> rfl
    have hopened := addText_writes (V := V) h ((if first then [] else " or ".toList) ++ ['('])
    have htests := hopened.trans (addTests_writes name dialect hopened.even true group)
    have hgroup := htests.trans (addText_writes htests.even [')'])
    have hall := hgroup.trans (ih hgroup.even false)
    rw [hseparator, listed_eq_intercalate] at hall
    rw [List.map_cons, listed, groupReading]
    simp only [List.append_assoc] at hall ⊢
    exact hall

theorem scopeFragment_length (terms : ScopeTerms) :
    (scopeFragment terms name dialect).1.length = (scopeFragment terms name dialect).2.length + 1 := by
  cases terms with
  | all => rfl
  | groups groups =>
    cases groups with
    | nil => rfl
    | cons group rest =>
      have hopen : (⟨[], [], ['(']⟩ : Fragment).Even := rfl
      have heven := (addGroups_writes (V := Unit) name dialect hopen true (group :: rest)).even
      rw [Fragment.Even] at heven
      simp only [scopeFragment, List.length_append, List.length_singleton, heven]

/-- A rendered fragment reads as the predicate of its terms. -/
theorem scopeFragment_reading (terms : ScopeTerms) :
    reading (scopeFragment terms name dialect).1 ((scopeFragment terms name dialect).2.map .test) =
      (predicate dialect name terms : Reading (Parameter V)) := by
  cases terms with
  | all => rfl
  | groups groups =>
    cases groups with
    | nil => rfl
    | cons group rest =>
      have hopen : (⟨[], [], ['(']⟩ : Fragment).Even := rfl
      have hgroups := addGroups_writes (V := V) name dialect hopen true (group :: rest)
      have hclosed := hgroups.trans (addText_writes hgroups.even [')'])
      have hreading := hclosed.reading
      rw [listed_eq_intercalate] at hreading
      rw [predicate, List.append_assoc]
      · exact hreading
      · exact fun e => nomatch e

/-! ## Splicing -/

def Expanded.reading (expanded : Expanded V) : Reading (Parameter V) :=
  SqlTemplate.reading (expanded.done ++ [expanded.last]) expanded.bound

/-- What a step of the expansion does: a value stays between each two parts, and `added` is read behind the rest. -/
structure Grows (before after : Expanded V) (added : Reading (Parameter V)) : Prop where
  even : after.done.length = after.bound.length
  reading : after.reading = before.reading ++ added

variable {expanded middle' later' : Expanded V}

theorem Grows.trans {added added' : Reading (Parameter V)} (h : Grows expanded middle' added) (h' : Grows middle' later' added') :
    Grows expanded later' (added ++ added') :=
  ⟨h'.even, by rw [h'.reading, h.reading, List.append_assoc]⟩

section
variable (h : expanded.done.length = expanded.bound.length)
include h

theorem Grows.refl : Grows expanded expanded [] :=
  ⟨h, (List.append_nil _).symm⟩

theorem addText_grows (text : List Char) : Grows expanded (expanded.addText text) (chars text) :=
  ⟨h, reading_addText h expanded.last text⟩

theorem push_grows (value : Parameter V) (part : List Char) :
    Grows expanded (expanded.push value part) (.inr value :: chars part) := by
  refine ⟨?_, reading_push h expanded.last part value⟩
  rw [Expanded.push, List.length_append, List.length_append, h, List.length_singleton, List.length_singleton]

/-- A fragment's parts spliced around its values are read as the fragment. -/
theorem pushTests_grows {values : List TestValue} (hlength : parts.length = values.length + 1) :
    Grows expanded ((expanded.addText (parts.headD [])).pushTests parts.tail values) (reading parts (values.map .test)) := by
  cases parts with
  | nil => cases hlength
  | cons first parts =>
    have htests : ∀ (values : List TestValue) (parts : Parts) (first : List Char) (expanded : Expanded V),
        expanded.done.length = expanded.bound.length → parts.length = values.length →
        Grows expanded ((expanded.addText first).pushTests parts values) (reading (first :: parts) (values.map .test)) := by
      intro values
      induction values with
      | nil =>
        intro parts first expanded h hlength
        exact addText_grows h first
      | cons value values ih =>
        intro parts first expanded h hlength
        cases parts with
        | nil => cases hlength
        | cons next parts =>
          -- The next part is written behind an empty one, pushed with the value.
          have hfirst := addText_grows h first
          have hpushed := hfirst.trans (push_grows hfirst.even (.test value) [])
          have hrest := hpushed.trans (ih parts next _ hpushed.even (Nat.succ.inj hlength))
          rw [List.append_assoc] at hrest
          exact hrest
    exact htests values parts first expanded h (Nat.succ.inj hlength)

end

theorem expandFrom_grows [DecidableEq S] {site : S} {values : List (Interpolation S V)}
    (h : expanded.done.length = expanded.bound.length) (hout : expandFrom site dialect parts values expanded = .ok middle') :
    Grows expanded middle' (readFrom dialect parts values) := by
  induction values generalizing parts expanded with
  | nil =>
    rw [expandFrom] at hout
    cases hout
    exact .refl h
  | cons value rest ih =>
    cases value with
    | value value =>
      rw [expandFrom] at hout
      have hpush := push_grows h (.given value) (parts.headD [])
      exact hpush.trans (ih hpush.even hout)
    | scope owner name terms =>
      rw [expandFrom] at hout
      split at hout
      · cases hout
      · have hfragment := pushTests_grows h (scopeFragment_length name dialect terms)
        have hafter := hfragment.trans (addText_grows hfragment.even (parts.headD []))
        have hall := hafter.trans (ih hafter.even hout)
        rw [scopeFragment_reading] at hall
        exact hall

theorem spliced [DecidableEq S] {site : S} {values : List (Interpolation S V)} {out : Template V}
    (h : expandScopes site parts values dialect = .ok out) : Spliced dialect parts values out := by
  rw [expandScopes] at h
  cases hplaced : placedTokens parts dialect with
  | error e =>
    rw [hplaced] at h
    cases h
  | ok tokens =>
    rw [hplaced] at h
    dsimp only [bind, Except.bind] at h
    cases hexpanded : expandFrom site dialect parts.tail values ⟨[], parts.headD [], []⟩ with
    | error e =>
      rw [hexpanded] at h
      cases h
    | ok expanded =>
      rw [hexpanded] at h
      cases h
      have hstart : (⟨[], parts.headD [], []⟩ : Expanded V).done.length = (⟨[], parts.headD [], []⟩ : Expanded V).bound.length :=
        rfl
      have hgrows := expandFrom_grows dialect hstart hexpanded
      have hlengths : (expanded.done ++ [expanded.last]).length = expanded.bound.length + 1 := by
        rw [List.length_append, List.length_singleton, hgrows.even]
      have hreading : reading (expanded.done ++ [expanded.last]) expanded.bound = templateReading dialect parts values :=
        hgrows.reading
      refine ⟨hlengths, ?_, ?_⟩
      · intro text htext
        rw [(statementText_ok htext).1, joined_reading _ hlengths, hreading]
      · rw [← hreading, boundOf_reading hlengths]

/-! ## The two halves -/

/--
  Of every accepted template the placeholders are bound exactly when no marker is parted from a
  digit; of every expanded one each placeholder binds the value of its number.
-/
theorem interpolations_bound [DecidableEq S] :
    (∀ (dialect : SqlDialect) (parts : Parts) (tokens : List SqlToken), placedTokens parts dialect = .ok tokens →
      (Bound dialect parts ↔ parted (markerOf dialect) (tokensAt dialect parts) = false)) ∧
    ∀ (site : S) (dialect : SqlDialect) (parts : Parts) (values : List (Interpolation S V)) (out : Template V),
      expandScopes site parts values dialect = .ok out → Spliced dialect parts values out :=
  ⟨fun _ _ _ h => bound_iff h, fun _ dialect _ _ _ h => spliced dialect h⟩

end Reading

/-- A team's notes, one of them by its id: the fragment's team is the second value. -/
def teamNote : Parts := ["select id from notes n where id = ".toList, " and ".toList, []]

def teamNoteValues : List (Interpolation Unit Nat) := [.value 7, .scope () ['n'] (.groups [[⟨"team", .one "t1"⟩]])]

theorem bound_in_a_where :
    Bound .postgres ["select id from notes where title = ".toList, " or $a$?$a$ <> ".toList, "::text".toList] ∧
      Spliced .postgres teamNote teamNoteValues
        ⟨["select id from notes n where id = ".toList, " and ((n.team = ".toList, "))".toList],
          [.given 7, .test (.one "t1")]⟩ := by
  have h : placedTokens ["select id from notes where title = ".toList, " or $a$?$a$ <> ".toList, "::text".toList] .postgres =
      .ok (lexSql "select id from notes where title = $1 or $a$?$a$ <> $2::text".toList).tokens := by decide
  refine ⟨((interpolations_bound (S := Unit) (V := Nat)).1 .postgres _ _ h).mpr (by decide), ?_⟩
  exact interpolations_bound.2 () .postgres teamNote teamNoteValues _ rfl

/-- The value stands in a string, and a marker the text writes with a space before its digit makes up the count. -/
theorem a_spaced_marker_makes_up_the_count : ¬∀ (dialect : SqlDialect) (parts : Parts) (tokens : List SqlToken),
    placedTokens parts dialect = .ok tokens → Bound dialect parts := by
  intro h
  have haccepted : placedTokens ["select '".toList, "', $ 1".toList] .postgres =
      .ok (lexSql "select '$1', $ 1".toList).tokens := by decide
  have hparameters := (h _ _ _ haccepted).parameters
  exact absurd hparameters (by decide)

end Fabrika.Db.SqlTemplate
