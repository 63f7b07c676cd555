/-
  Fabrika.Lib.JsonParse — `JSON.parse`: the JSON grammar read unit by unit.

  A text is read strictly: one value between blanks, a number as the grammar spells it, no raw
  control unit inside a string. Of two members of one name an object keeps the later value,
  and it lists its members in the order objects keep their own entries in.

  Proved: the text written for a value of distinct, ordered keys is read back
  (`parse_print`). So it is well-formed.
-/

import Fabrika.Lib.Double
import Fabrika.Lib.Utf16

namespace Fabrika.Lib.Json

open Double (digits hexValue)

/-! ## Blanks and strings -/

def isJsonSpace (u : Nat) : Bool := u == 0x20 || u == 0x09 || u == 0x0a || u == 0x0d

def skip (text : Units) : Units := text.dropWhile isJsonSpace

def simpleEscape (u : Nat) : Option Nat :=
  if u = 0x22 ∨ u = 0x5c ∨ u = 0x2f then some u
  else if u = 0x62 then some 0x08
  else if u = 0x66 then some 0x0c
  else if u = 0x6e then some 0x0a
  else if u = 0x72 then some 0x0d
  else if u = 0x74 then some 0x09
  else none

def escapedUnit (a b c d : Nat) : Option Nat := do
  return (((← hexValue a) * 16 + (← hexValue b)) * 16 + (← hexValue c)) * 16 + (← hexValue d)

def readEscape : Units → Option (Nat × Units)
  | [] => none
  | v :: rest =>
    if v = 0x75 then
      match rest with
      | a :: b :: c :: d :: more => (escapedUnit a b c d).map fun unit => (unit, more)
      | _ => none
    else (simpleEscape v).map fun unit => (unit, rest)

/-- One unit of a string, and what follows. -/
def readUnit : Units → Option (Nat × Units)
  | [] => none
  | u :: rest => if u = 0x5c then readEscape rest else if u < 0x20 then none else some (u, rest)

/-- A string's text up to its closing quote, and what follows. -/
def readString : Nat → Units → Option (Units × Units)
  | 0, _ => none
  | _ + 1, [] => none
  | fuel + 1, u :: rest =>
    if u = 0x22 then some ([], rest)
    else (readUnit (u :: rest)).bind fun one => (readString fuel one.2).map fun found => (one.1 :: found.1, found.2)

/-! ## A string reads back -/

theorem hexValue_hexDigit {d : Nat} (h : d < 16) : hexValue (hexDigit d) = some d := by
  unfold hexValue hexDigit
  by_cases hd : d < 10
  · rw [if_pos hd, if_pos (by omega)]
    congr 1
    omega
  · rw [if_neg hd, if_neg (by omega), if_pos (by omega)]
    congr 1
    omega

variable {u : Nat} {α : Type} {xs : List (Json Double)} {fs : List (Units × Json Double)} {v : Json Double}

theorem escapedUnit_digits (h : u < 0x10000) :
    escapedUnit (hexDigit (u / 4096 % 16)) (hexDigit (u / 256 % 16)) (hexDigit (u / 16 % 16)) (hexDigit (u % 16)) = some u := by
  have hu : ((u / 4096 % 16 * 16 + u / 256 % 16) * 16 + u / 16 % 16) * 16 + u % 16 = u := by omega
  simp only [escapedUnit, hexValue_hexDigit (show u / 4096 % 16 < 16 by omega),
    hexValue_hexDigit (show u / 256 % 16 < 16 by omega), hexValue_hexDigit (show u / 16 % 16 < 16 by omega),
    hexValue_hexDigit (show u % 16 < 16 by omega)]
  exact congrArg some hu

theorem readUnit_escape (h : u < 0x10000) (rest : Units) : readUnit (escape u ++ rest) = some (u, rest) := by
  have hsimple : ∀ {v unit}, simpleEscape v = some unit → v ≠ 0x75 → readUnit ([0x5c, v] ++ rest) = some (unit, rest) := by
    intro v unit hunit hv
    show readEscape (v :: rest) = _
    unfold readEscape
    dsimp only
    rw [if_neg hv, hunit, Option.map_some]
  unfold escape
  split
  · subst u; exact hsimple rfl (by decide)
  split
  · subst u; exact hsimple rfl (by decide)
  split
  · subst u; exact hsimple rfl (by decide)
  split
  · subst u; exact hsimple rfl (by decide)
  split
  · subst u; exact hsimple rfl (by decide)
  split
  · subst u; exact hsimple rfl (by decide)
  split
  · subst u; exact hsimple rfl (by decide)
  split
  · show readEscape (0x75 :: hexDigit (u / 4096 % 16) :: hexDigit (u / 256 % 16) :: hexDigit (u / 16 % 16) ::
      hexDigit (u % 16) :: rest) = _
    simp only [readEscape, if_true, escapedUnit_digits h, Option.map_some]
  · rename_i hquote hslash _ _ _ _ _ hplain
    rw [not_or] at hplain
    show readUnit (u :: rest) = _
    rw [readUnit, if_neg hslash, if_neg hplain.1]

/-- No unit is written with a quote in front. -/
theorem escape_head (u : Nat) : ∃ first more, escape u = first :: more ∧ first ≠ 0x22 := by
  unfold escape
  split
  · exact ⟨_, _, rfl, by decide⟩
  split
  · exact ⟨_, _, rfl, by decide⟩
  split
  · exact ⟨_, _, rfl, by decide⟩
  split
  · exact ⟨_, _, rfl, by decide⟩
  split
  · exact ⟨_, _, rfl, by decide⟩
  split
  · exact ⟨_, _, rfl, by decide⟩
  split
  · exact ⟨_, _, rfl, by decide⟩
  split
  · exact ⟨_, _, rfl, by decide⟩
  · exact ⟨_, _, rfl, ‹_›⟩

variable {rest : Units} {fields : List (Units × α)}

theorem readString_step {first : Nat} {more : Units} {unit : Nat} (hfirst : first ≠ 0x22)
    (hunit : readUnit (first :: more) = some (unit, rest)) (fuel : Nat) :
    readString (fuel + 1) (first :: more) = (readString fuel rest).map fun found => (unit :: found.1, found.2) := by
  rw [readString, if_neg hfirst, hunit, Option.bind_some]

theorem readString_escape (h : u < 0x10000) (rest : Units) (fuel : Nat) :
    readString (fuel + 1) (escape u ++ rest) = (readString fuel rest).map fun found => (u :: found.1, found.2) := by
  obtain ⟨first, more, hescape, hfirst⟩ := escape_head u
  have hunit := readUnit_escape h rest
  rw [hescape, List.cons_append] at hunit ⊢
  exact readString_step hfirst hunit fuel

theorem readString_surrogate (h : 0xD800 ≤ u) (rest : Units) (fuel : Nat) :
    readString (fuel + 1) (u :: rest) = (readString fuel rest).map fun found => (u :: found.1, found.2) := by
  have hunit : readUnit (u :: rest) = some (u, rest) := by
    rw [readUnit, if_neg (by omega), if_neg (by omega)]
  exact readString_step (by omega) hunit fuel

theorem readString_quoteUnits (s rest : Units) (h : ∀ u ∈ s, u < 0x10000) :
    ∀ fuel, s.length < fuel → readString fuel (quoteUnits s ++ 0x22 :: rest) = some (s, rest) := by
  fun_induction quoteUnits s with
  | case1 =>
    intro fuel hfuel
    obtain ⟨fuel, rfl⟩ := Nat.exists_eq_add_one_of_ne_zero (show fuel ≠ 0 by omega)
    rfl
  | case2 u =>
    intro fuel hfuel
    rw [List.length_singleton] at hfuel
    obtain ⟨fuel, rfl⟩ := Nat.exists_eq_add_of_lt hfuel
    rw [show 1 + fuel + 1 = (fuel + 1) + 1 by omega, readString_escape (h u List.mem_cons_self)]
    rfl
  | case3 u v s hpair ih =>
    intro fuel hfuel
    simp only [isHighSurrogate, isLowSurrogate, Bool.and_eq_true, decide_eq_true_eq] at hpair
    rw [List.length_cons, List.length_cons] at hfuel
    obtain ⟨fuel, rfl⟩ : ∃ k, fuel = k + 1 + 1 := ⟨fuel - 2, by omega⟩
    rw [List.cons_append, List.cons_append, readString_surrogate (by omega), readString_surrogate (by omega),
      ih (fun w hw => h w (by simp [hw])) fuel (by omega)]
    rfl
  | case4 u v s hpair ih =>
    intro fuel hfuel
    rw [List.length_cons] at hfuel
    obtain ⟨fuel, rfl⟩ : ∃ k, fuel = k + 1 := ⟨fuel - 1, by omega⟩
    rw [List.append_assoc, readString_escape (h u List.mem_cons_self),
      ih (fun w hw => h w (List.mem_cons_of_mem _ hw)) fuel (by omega)]
    rfl

theorem length_quoteUnits (s : Units) : s.length ≤ (quoteUnits s).length := by
  fun_induction quoteUnits s with
  | case1 => exact le_rfl
  | case2 u =>
    obtain ⟨first, more, hescape, _⟩ := escape_head u
    rw [hescape]
    simp
  | case3 u v s hpair ih => simpa using ih
  | case4 u v s hpair ih =>
    obtain ⟨first, more, hescape, _⟩ := escape_head u
    simp only [hescape, List.length_append, List.length_cons] at ih ⊢
    omega

theorem skip_cons (h : isJsonSpace u = false) (rest : Units) : skip (u :: rest) = u :: rest := by
  simp [skip, h]

/-! ## Numbers -/

/-- What a number is spelled with. -/
def isNumberUnit (u : Nat) : Bool := isNumeralUnit u || u == 0x45

def isDigits (u : Units) : Bool := u ≠ [] && u.all isDigit

/-- Nothing, or an exponent. -/
def isExponent : Units → Bool
  | [] => true
  | mark :: rest =>
    (mark == 0x65 || mark == 0x45) &&
      match rest with
      | [] => false
      | sign :: more => if sign = 0x2b ∨ sign = 0x2d then isDigits more else isDigits rest

/-- A fraction and an exponent, each of which may be missing. -/
def isFraction : Units → Bool
  | [] => true
  | u :: rest =>
    if u = 0x2e then rest.takeWhile isDigit ≠ [] && isExponent (rest.dropWhile isDigit) else isExponent (u :: rest)

/-- A whole part without a leading zero, then what may follow it. -/
def isUnsigned (u : Units) : Bool :=
  let whole := u.takeWhile isDigit
  (whole = [0x30] || (whole ≠ [] && whole.head? ≠ some 0x30)) && isFraction (u.dropWhile isDigit)

def isNumber : Units → Bool
  | [] => false
  | u :: rest => if u = 0x2d then isUnsigned rest else isUnsigned (u :: rest)

/-- A number, read as far as anything a number is spelled with goes. -/
def readNumber (text : Units) : Option (Json Double.Number × Units) :=
  let token := text.takeWhile isNumberUnit
  if isNumber token then some (.num (Double.read token), text.dropWhile isNumberUnit) else none

theorem isDigits_digits (n : ℕ) : isDigits (digits n) = true := by
  simp only [isDigits, Bool.and_eq_true, decide_eq_true_eq, List.all_eq_true]
  exact ⟨Double.digits_ne_nil n, Double.isDigit_of_mem_digits⟩

theorem isExponent_exponentText (e : ℤ) : isExponent (Double.exponentText e) = true := by
  unfold Double.exponentText
  by_cases h : 0 ≤ e
  · simp [isExponent, h, isDigits_digits]
  · simp [isExponent, h, isDigits_digits]

theorem isUnsigned_pointed {whole fraction rest : Units} (hwhole : ∀ u ∈ whole, isDigit u = true)
    (hlead : whole = [0x30] ∨ (whole ≠ [] ∧ whole.head? ≠ some 0x30)) (hfraction : ∀ u ∈ fraction, isDigit u = true)
    (hrest : rest = [] ∨ ∃ more, rest = 0x65 :: more) (he : isExponent rest = true) :
    isUnsigned (Double.pointed whole fraction ++ rest) = true := by
  have hstops : Double.StopsDigits rest := by
    rcases hrest with rfl | ⟨more, rfl⟩
    · simp [Double.StopsDigits]
    · simp [Double.StopsDigits, isDigit]
  have hfirst : (whole = [0x30] || (whole ≠ [] && whole.head? ≠ some 0x30)) = true := by
    simpa using hlead
  by_cases h : fraction = []
  · subst h
    obtain ⟨htake, hdrop⟩ := Double.span_digits hwhole hstops
    have hfrac : isFraction rest = true := by
      rcases hrest with rfl | ⟨more, rfl⟩
      · rfl
      · rw [isFraction, if_neg (by decide)]
        exact he
    simp only [isUnsigned, Double.pointed, if_true, htake, hdrop, hfirst, hfrac, Bool.and_self]
  · have hsplit : Double.pointed whole fraction ++ rest = whole ++ (0x2e :: (fraction ++ rest)) := by
      simp [Double.pointed, h]
    have hpoint : Double.StopsDigits (0x2e :: (fraction ++ rest)) := by
      intro u hu
      cases hu
      rfl
    obtain ⟨htake, hdrop⟩ := Double.span_digits hwhole hpoint
    obtain ⟨htake', hdrop'⟩ := Double.span_digits hfraction hstops
    have hfrac : isFraction (0x2e :: (fraction ++ rest)) = true := by
      simp [isFraction, htake', hdrop', h, he]
    simp only [isUnsigned, hsplit, htake, hdrop, hfirst, hfrac, Bool.and_self]

/-- A number other than zero is written without a leading zero. -/
theorem head_digits {n : ℕ} (h : n ≠ 0) : (digits n).head? ≠ some 0x30 := by
  induction n using Nat.strongRecOn with
  | ind n ih =>
    by_cases hsmall : n < 10
    · rw [digits, Nat.toDigits_of_lt_base hsmall]
      have hall : ∀ d < 10, d ≠ 0 → ([Nat.digitChar d].map Char.toNat).head? ≠ some 0x30 := by decide
      exact hall n hsmall h
    · have hhead := ih (n / 10) (by omega) (by omega)
      have hne := Double.digits_ne_nil (n / 10)
      rw [digits] at hhead hne
      rw [digits, Nat.toDigits_of_base_le (by decide) (by omega), List.map_append, List.head?_append_of_ne_nil _ hne]
      exact hhead

theorem head_take {u : Units} {n : ℕ} (hn : 0 < n) : (u.take n).head? = u.head? := by
  obtain ⟨n, rfl⟩ := Nat.exists_eq_add_one_of_ne_zero (show n ≠ 0 by omega)
  cases u <;> rfl

theorem isUnsigned_format {d : Double.Decimal} (h : d.1 ≠ 0) : isUnsigned (Double.format d) = true := by
  obtain ⟨s, p⟩ := d
  have hne := Double.digits_ne_nil s
  have hhead := head_digits h
  have hlength : 0 < (digits s).length := List.length_pos_iff.mpr hne
  have htake : ∀ n, ∀ u ∈ (digits s).take n, isDigit u = true :=
    fun n u hu => Double.isDigit_of_mem_digits u (List.mem_of_mem_take hu)
  have hdrop : ∀ n, ∀ u ∈ (digits s).drop n, isDigit u = true :=
    fun n u hu => Double.isDigit_of_mem_digits u (List.mem_of_mem_drop hu)
  have hlead : ∀ n, 0 < n → (digits s).take n = [0x30] ∨
      ((digits s).take n ≠ [] ∧ ((digits s).take n).head? ≠ some 0x30) := by
    intro n hn
    refine .inr ⟨Double.take_ne_nil hne hn, ?_⟩
    rw [head_take hn]
    exact hhead
  rw [Double.format]
  dsimp only
  split
  · -- The zeros after the digits belong to the whole part.
    have hwhole : ∀ u ∈ digits s ++ List.replicate (p + (digits s).length - (digits s).length).toNat 0x30,
        isDigit u = true := by
      intro u hu
      rcases List.mem_append.mp hu with hu | hu
      · exact Double.isDigit_of_mem_digits u hu
      · exact Double.isDigit_of_mem_zeros u hu
    have hstart : digits s ++ List.replicate (p + (digits s).length - (digits s).length).toNat 0x30 ≠ [] ∧
        (digits s ++ List.replicate (p + (digits s).length - (digits s).length).toNat 0x30).head? ≠
          some 0x30 := by
      refine ⟨by simp [hne], ?_⟩
      rw [List.head?_append_of_ne_nil _ hne]
      exact hhead
    have hread := isUnsigned_pointed hwhole (.inr hstart) (List.forall_mem_nil _) (.inl rfl) rfl
    simpa [Double.pointed] using hread
  split
  · rename_i hn
    have hsplit : 0 < (p + (digits s).length).toNat := by omega
    have hread := isUnsigned_pointed (htake _) (hlead _ hsplit) (hdrop (p + (digits s).length).toNat) (.inl rfl) rfl
    rwa [List.append_nil] at hread
  split
  · have hfraction : ∀ u ∈ List.replicate (-(p + (digits s).length)).toNat 0x30 ++ digits s, isDigit u = true := by
      intro u hu
      rcases List.mem_append.mp hu with hu | hu
      · exact Double.isDigit_of_mem_zeros u hu
      · exact Double.isDigit_of_mem_digits u hu
    have hread := isUnsigned_pointed (show ∀ u ∈ [0x30], isDigit u = true by decide) (.inl rfl) hfraction (.inl rfl) rfl
    rwa [List.append_nil] at hread
  · exact isUnsigned_pointed (htake 1) (hlead 1 (by decide)) (hdrop 1) (.inr ⟨_, rfl⟩) (isExponent_exponentText _)

theorem isUnsigned_unsignedText {x : Double} (hx : 0 < x.value) : isUnsigned (Double.unsignedText x.value) = true := by
  apply isUnsigned_format
  intro hzero
  have hvalue := Double.strip_value (Nat.log 10 (Double.shortest x.value).1) (Double.shortest x.value)
  have hround := Double.round_shortest x.isDouble hx
  rw [← hvalue, Double.Decimal.value, hzero, Nat.cast_zero, zero_mul] at hround
  have hround0 : Double.round 0 = 0 := by
    simp [Double.round, Double.roundEven]
  rw [hround0] at hround
  exact hx.ne hround

theorem isNumber_text (x : Double) : isNumber x.text = true := by
  by_cases hzero : x.value = 0
  · have htext : x.text = [0x30] := by
      rw [Double.text, if_pos hzero]
    rw [htext]
    decide
  by_cases hneg : x.value < 0
  · have htext : x.text = 0x2d :: Double.unsignedText x.neg.value := by
      rw [Double.text, if_neg hzero, if_pos hneg]
      rfl
    have hpos : 0 < x.neg.value := neg_pos.mpr hneg
    rw [htext]
    exact isUnsigned_unsignedText hpos
  · have htext : x.text = Double.unsignedText x.value := by
      rw [Double.text, if_neg hzero, if_neg hneg]
    have hpos : 0 < x.value := lt_of_le_of_ne (not_lt.mp hneg) (Ne.symm hzero)
    obtain ⟨c, rest, hformat, hc⟩ : Double.StartsWithDigit (Double.unsignedText x.value) := Double.startsWithDigit_format _
    have hread := isUnsigned_unsignedText hpos
    have hminus : c ≠ 0x2d := by
      intro hminus
      rw [hminus] at hc
      exact absurd hc (by decide)
    rw [hformat] at hread
    rw [htext, hformat, isNumber, if_neg hminus]
    exact hread

/-- What may follow a number: nothing that could continue it. -/
def EndsNumber (r : Units) : Prop := ∀ u ∈ r.head?, isNumberUnit u = false

theorem EndsNumber.cons {u : Nat} (h : isNumberUnit u = false) (r : Units) : EndsNumber (u :: r) := by
  intro x hx
  cases hx
  exact h

theorem readNumber_text (x : Double) (hrest : EndsNumber rest) :
    readNumber (x.text ++ rest) = some (.num (.finite x), rest) := by
  have hunits : ∀ u ∈ x.text, isNumberUnit u = true := by
    intro u hu
    rw [isNumberUnit, Double.isNumeralUnit_text x u hu, Bool.true_or]
  have hspan : (x.text ++ rest).takeWhile isNumberUnit = x.text ∧ (x.text ++ rest).dropWhile isNumberUnit = rest := by
    rw [List.takeWhile_append_of_pos hunits, List.dropWhile_append_of_pos hunits]
    cases rest with
    | nil => simp
    | cons u rest =>
      have hu : isNumberUnit u = false := hrest u rfl
      simp [hu]
  simp only [readNumber, hspan.1, hspan.2, isNumber_text, if_true, Double.read_text]

/-! ## Members of an object -/

/-- A member as it is created: in place of an earlier one of its name, or after the others. -/
def setField {α : Type} (fields : List (Units × α)) (key : Units) (value : α) : List (Units × α) :=
  if key ∈ fields.map Prod.fst then fields.map fun field => if field.1 = key then (key, value) else field
  else fields ++ [(key, value)]

/-- The own entries of an object its members were created on one after another. -/
def record {α : Type} (fields : List (Units × α)) : List (Units × α) :=
  ownOrder (fields.foldl (fun built field => setField built field.1 field.2) [])

theorem foldl_setField (built fields : List (Units × α)) (hkeys : ((built ++ fields).map Prod.fst).Nodup) :
    fields.foldl (fun built field => setField built field.1 field.2) built = built ++ fields := by
  induction fields generalizing built with
  | nil => simp
  | cons field rest ih =>
    have hfresh : field.1 ∉ built.map Prod.fst := by
      intro hmem
      rw [List.map_append, List.map_cons, List.nodup_append] at hkeys
      exact hkeys.2.2 _ hmem _ List.mem_cons_self rfl
    rw [List.foldl_cons, setField, if_neg hfresh, ih, List.append_assoc]
    · rfl
    · simpa using hkeys

theorem record_eq (hkeys : (fields.map Prod.fst).Nodup) (horder : ownOrder fields = fields) : record fields = fields := by
  rw [record, foldl_setField [] fields (by simpa using hkeys), List.nil_append, horder]

/-! ## Values -/

def literal (word : String) (value : Json Double.Number) (text : Units) : Option (Json Double.Number × Units) :=
  if text.take (codeUnits word).length = codeUnits word then some (value, text.drop (codeUnits word).length) else none

mutual
/-- The value a text starts with, and what follows it. Every call on a text of the same length
    costs one unit of fuel, so twice the length is enough. -/
def readValue : Nat → Units → Option (Json Double.Number × Units)
  | 0, _ => none
  | _ + 1, [] => none
  | fuel + 1, u :: rest =>
    if u = 0x22 then (readString rest.length rest).map fun found => (.str found.1, found.2)
    else if u = 0x5b then
      match skip rest with
      | [] => none
      | v :: more =>
        if v = 0x5d then some (.arr [], more) else (readItems fuel (v :: more)).map fun found => (.arr found.1, found.2)
    else if u = 0x7b then
      match skip rest with
      | [] => none
      | v :: more =>
        if v = 0x7d then some (.obj [], more)
        else (readFields fuel (v :: more)).map fun found => (.obj (record found.1), found.2)
    else if u = 0x6e then literal "null" .null (u :: rest)
    else if u = 0x74 then literal "true" (.bool true) (u :: rest)
    else if u = 0x66 then literal "false" (.bool false) (u :: rest)
    else readNumber (u :: rest)
/-- The items from the first on, and what follows the closing bracket. -/
def readItems : Nat → Units → Option (List (Json Double.Number) × Units)
  | 0, _ => none
  | fuel + 1, text =>
    (readValue fuel text).bind fun found =>
      match skip found.2 with
      | [] => none
      | u :: more =>
        if u = 0x2c then (readItems fuel (skip more)).map fun rest => (found.1 :: rest.1, rest.2)
        else if u = 0x5d then some ([found.1], more)
        else none
/-- The members from the first on, and what follows the closing brace. -/
def readFields : Nat → Units → Option (List (Units × Json Double.Number) × Units)
  | 0, _ => none
  | _ + 1, [] => none
  | fuel + 1, q :: text =>
    if q = 0x22 then
      (readString text.length text).bind fun key =>
        match skip key.2 with
        | [] => none
        | c :: text =>
          if c = 0x3a then
            (readValue fuel (skip text)).bind fun found =>
              match skip found.2 with
              | [] => none
              | u :: more =>
                if u = 0x2c then (readFields fuel (skip more)).map fun rest => ((key.1, found.1) :: rest.1, rest.2)
                else if u = 0x7d then some ([(key.1, found.1)], more)
                else none
          else none
    else none
end

/-- `JSON.parse`; `none` where it throws a `SyntaxError`. -/
def parse (text : Units) : Option (Json Double.Number) :=
  (readValue (2 * text.length + 1) (skip text)).bind fun found => if skip found.2 = [] then some found.1 else none

/-! ## The text of a value reads back -/

variable {M N : Type}

mutual
/-- The same value over other numbers. -/
def mapNumbers (f : M → N) : Json M → Json N
  | .null => .null
  | .bool b => .bool b
  | .num n => .num (f n)
  | .str s => .str s
  | .arr xs => .arr (mapItems f xs)
  | .obj fs => .obj (mapFields f fs)
def mapItems (f : M → N) : List (Json M) → List (Json N)
  | [] => []
  | x :: xs => mapNumbers f x :: mapItems f xs
def mapFields (f : M → N) : List (Units × Json M) → List (Units × Json N)
  | [] => []
  | (k, v) :: fs => (k, mapNumbers f v) :: mapFields f fs
end

theorem mapItems_eq (f : M → N) (xs : List (Json M)) : mapItems f xs = xs.map (mapNumbers f) := by
  induction xs with
  | nil => rfl
  | cons x xs ih => rw [mapItems, ih, List.map_cons]

theorem mapFields_eq (f : M → N) (fs : List (Units × Json M)) : mapFields f fs = fs.map (Prod.map id (mapNumbers f)) := by
  induction fs with
  | nil => rfl
  | cons field fs ih =>
    obtain ⟨k, v⟩ := field
    rw [mapFields, ih, List.map_cons]
    rfl

/-- A value as a program holds it: texts of code units, and objects that list distinct keys in
    the order objects do. -/
inductive Proper : Json N → Prop
  | null : Proper .null
  | bool (b : Bool) : Proper (.bool b)
  | num (n : N) : Proper (.num n)
  | str {s : Units} : (∀ u ∈ s, u < 0x10000) → Proper (.str s)
  | arr {xs : List (Json N)} : (∀ x ∈ xs, Proper x) → Proper (.arr xs)
  | obj {fs : List (Units × Json N)} : (fs.map Prod.fst).Nodup → ownOrder fs = fs → (∀ f ∈ fs, ∀ u ∈ f.1, u < 0x10000) →
      (∀ f ∈ fs, Proper f.2) → Proper (.obj fs)

theorem ownOrder_map {β : Type} (f : α → β) (fields : List (Units × α)) :
    ownOrder (fields.map (Prod.map id f)) = (ownOrder fields).map (Prod.map id f) := by
  have hfilter : ∀ p : Units → Bool, (fields.map (Prod.map id f)).filter (fun field => p field.1) =
      (fields.filter fun field => p field.1).map (Prod.map id f) := by
    intro p
    rw [List.filter_map]
    rfl
  have hindexed := hfilter fun key => (arrayIndex key).isSome
  have hnamed := hfilter fun key => !(arrayIndex key).isSome
  rw [ownOrder, ownOrder, List.map_append, hindexed, hnamed]
  congr 1
  exact (map_sortOn _ fun _ _ => rfl).symm

/-- `a` may be listed before `b`: indices ascend and precede names. -/
def Before (a b : Units) : Prop :=
  match arrayIndex a, arrayIndex b with
  | some i, some j => i ≤ j
  | none, some _ => False
  | _, none => True

theorem pairwise_ownOrder (fields : List (Units × α)) : (ownOrder fields).Pairwise fun a b => Before a.1 b.1 := by
  rw [ownOrder, List.pairwise_append]
  have hindexed : ∀ field ∈ sortOn (fun field => (arrayIndex field.1).getD 0) (fields.filter fun field =>
      (arrayIndex field.1).isSome),
      (arrayIndex field.1).isSome = true := by
    intro field hfield
    have := (sortOn_perm _ _).mem_iff.mp hfield
    exact (List.mem_filter.mp this).2
  refine ⟨?_, ?_, ?_⟩
  · apply List.Pairwise.imp_of_mem ?_ (sortOn_pairwise _ _)
    intro a b ha hb hab
    obtain ⟨i, hi⟩ := Option.isSome_iff_exists.mp (hindexed a ha)
    obtain ⟨j, hj⟩ := Option.isSome_iff_exists.mp (hindexed b hb)
    rw [hi, hj] at hab
    simpa [Before, hi, hj] using hab
  · apply List.pairwise_of_forall_mem_list
    intro a ha b hb
    have hb := (List.mem_filter.mp hb).2
    rw [Bool.not_eq_true', Option.isSome_eq_false_iff, Option.isNone_iff_eq_none] at hb
    cases hidx : arrayIndex a.1 <;> simp [Before, hb, hidx]
  · intro a ha b hb
    have hb := (List.mem_filter.mp hb).2
    rw [Bool.not_eq_true', Option.isSome_eq_false_iff, Option.isNone_iff_eq_none] at hb
    cases hidx : arrayIndex a.1 <;> simp [Before, hb, hidx]

theorem ownOrder_of_pairwise (h : fields.Pairwise fun a b => Before a.1 b.1) : ownOrder fields = fields := by
  have hsorted : sortOn (fun field : Units × α => (arrayIndex field.1).getD 0) (fields.filter fun field =>
      (arrayIndex field.1).isSome) =
      fields.filter fun field => (arrayIndex field.1).isSome := by
    apply List.Pairwise.insertionSort_eq
    refine List.Pairwise.imp_of_mem ?_ (h.sublist List.filter_sublist)
    intro a b ha hb hab
    obtain ⟨i, hi⟩ := Option.isSome_iff_exists.mp (List.mem_filter.mp ha).2
    obtain ⟨j, hj⟩ := Option.isSome_iff_exists.mp (List.mem_filter.mp hb).2
    simpa [Before, hi, hj] using hab
  rw [ownOrder, hsorted]
  clear hsorted
  induction fields with
  | nil => rfl
  | cons field rest ih =>
    rw [List.pairwise_cons] at h
    cases hidx : arrayIndex field.1 with
    | some i => simpa [List.filter_cons, hidx] using ih h.2
    | none =>
      -- After the first name there are names only.
      have hnames : ∀ other ∈ rest, arrayIndex other.1 = none := by
        intro other hother
        have := h.1 other hother
        rw [Before, hidx] at this
        cases hother' : arrayIndex other.1 with
        | none => rfl
        | some j =>
          rw [hother'] at this
          exact this.elim
      have hnone : rest.filter (fun other => (arrayIndex other.1).isSome) = [] := by
        rw [List.filter_eq_nil_iff]
        intro other hother
        simp [hnames other hother]
      have hall : rest.filter (fun other => !(arrayIndex other.1).isSome) = rest := by
        rw [List.filter_eq_self]
        intro other hother
        simp [hnames other hother]
      rw [List.filter_cons, List.filter_cons, hidx, hnone, hall]
      rfl

theorem ownOrder_of_sublist {β : Type} {others : List (Units × β)} (hsub : (others.map Prod.fst).Sublist (fields.map Prod.fst))
    (h : ownOrder fields = fields) : ownOrder others = others := by
  have hfields := pairwise_ownOrder fields
  rw [h] at hfields
  apply ownOrder_of_pairwise
  have hkeys : (fields.map Prod.fst).Pairwise Before := List.pairwise_map.mpr hfields
  exact List.pairwise_map.mp (hkeys.sublist hsub)

theorem record_mapFields {f : M → N} {fs : List (Units × Json M)} (hkeys : (fs.map Prod.fst).Nodup) (horder : ownOrder fs = fs) :
    record (mapFields f fs) = mapFields f fs := by
  rw [mapFields_eq]
  apply record_eq
  · rw [List.map_map]
    exact hkeys
  · rw [ownOrder_map, horder]

theorem isJsonSpace_of_kind (h : kindOfUnit u ≠ 6) : isJsonSpace u = false := by
  rw [Bool.eq_false_iff]
  intro hspace
  simp only [isJsonSpace, Bool.or_eq_true, beq_iff_eq] at hspace
  rcases hspace with ((rfl | rfl) | rfl) | rfl <;> exact h (by decide)

theorem kind_ne_six (v : Json N) : v.kind ≠ 6 := by
  cases v <;> simp [kind]

/-- A value starts with no blank and closes nothing. -/
theorem print_start [Numeral N] (v : Json N) :
    ∃ u rest, print v = u :: rest ∧ isJsonSpace u = false ∧ u ≠ 0x5d ∧ u ≠ 0x7d := by
  obtain ⟨u, rest, hprint, hkind⟩ := print_head v
  have hu : kindOfUnit u ≠ 6 := by
    rw [hkind]
    exact kind_ne_six v
  refine ⟨u, rest, hprint, isJsonSpace_of_kind hu, ?_, ?_⟩
  · rintro rfl
    exact hu (by decide)
  · rintro rfl
    exact hu (by decide)

theorem skip_print [Numeral N] (v : Json N) (rest : Units) : skip (print v ++ rest) = print v ++ rest := by
  obtain ⟨u, more, hprint, hspace, _⟩ := print_start v
  rw [hprint, List.cons_append]
  exact skip_cons hspace _

theorem readLiteral (word : String) (value : Json Double.Number) (rest : Units) :
    literal word value (codeUnits word ++ rest) = some (value, rest) := by
  rw [literal, List.take_left, if_pos rfl, List.drop_left]

theorem readString_quote {s : Units} (h : ∀ u ∈ s, u < 0x10000) (rest : Units) :
    readString (quoteUnits s ++ 0x22 :: rest).length (quoteUnits s ++ 0x22 :: rest) = some (s, rest) := by
  apply readString_quoteUnits s rest h
  have := length_quoteUnits s
  rw [List.length_append, List.length_cons]
  omega

theorem quote_append (s rest : Units) : quote s ++ rest = 0x22 :: (quoteUnits s ++ 0x22 :: rest) := by
  simp [quote]

/-- The value is read back in front of anything that continues no number. -/
def ReadsBack (v : Json Double) : Prop :=
  ∀ fuel rest, EndsNumber rest → 2 * (print v ++ rest).length < fuel →
    readValue fuel (print v ++ rest) = some (mapNumbers .finite v, rest)

theorem readsBack_num (x : Double) : ReadsBack (.num x) := by
  intro fuel rest hrest hfuel
  obtain ⟨fuel, rfl⟩ := Nat.exists_eq_add_one_of_ne_zero (show fuel ≠ 0 by omega)
  obtain ⟨u, more, htext⟩ := List.exists_cons_of_ne_nil (Double.text_ne_nil x)
  have hu : isNumeralUnit u = true := Double.isNumeralUnit_text x u (by rw [htext]; exact List.mem_cons_self)
  have hother : ∀ c, isNumeralUnit c = false → u ≠ c := by
    rintro c hc rfl
    rw [hu] at hc
    cases hc
  have hread := readNumber_text x hrest
  have hprint : print (.num x) = u :: more := htext
  rw [htext, List.cons_append] at hread
  rw [hprint, List.cons_append, readValue, if_neg (hother _ rfl), if_neg (hother _ rfl), if_neg (hother _ rfl),
    if_neg (hother _ rfl), if_neg (hother _ rfl), if_neg (hother _ rfl), hread, mapNumbers]

theorem readsBack_str {s : Units} (h : ∀ u ∈ s, u < 0x10000) : ReadsBack (.str s) := by
  intro fuel rest hrest hfuel
  obtain ⟨fuel, rfl⟩ := Nat.exists_eq_add_one_of_ne_zero (show fuel ≠ 0 by omega)
  rw [print, quote_append, readValue, if_pos rfl, readString_quote h]
  rfl

theorem readItems_print {x : Json Double} (h : ∀ y ∈ x :: xs, ReadsBack y) (rest : Units) :
    ∀ fuel, 2 * (print x ++ (printItems xs ++ rest)).length + 1 < fuel →
      readItems fuel (print x ++ (printItems xs ++ rest)) = some (mapItems .finite (x :: xs), rest) := by
  induction xs generalizing x with
  | nil =>
    intro fuel hfuel
    obtain ⟨fuel, rfl⟩ := Nat.exists_eq_add_one_of_ne_zero (show fuel ≠ 0 by omega)
    have hx := h x List.mem_cons_self fuel (printItems [] ++ rest) (EndsNumber.cons (by decide) _) (by omega)
    rw [readItems, hx, Option.bind_some]
    rfl
  | cons y ys ih =>
    intro fuel hfuel
    obtain ⟨fuel, rfl⟩ := Nat.exists_eq_add_one_of_ne_zero (show fuel ≠ 0 by omega)
    have hsplit : printItems (y :: ys) ++ rest = 0x2c :: (print y ++ (printItems ys ++ rest)) := by
      simp [printItems]
    rw [hsplit] at hfuel ⊢
    have hends : EndsNumber (0x2c :: (print y ++ (printItems ys ++ rest))) := EndsNumber.cons (by decide) _
    have hx := h x List.mem_cons_self fuel _ hends (by omega)
    have hys := ih (fun z hz => h z (List.mem_cons_of_mem _ hz)) fuel (by
      rw [List.length_append, List.length_cons] at hfuel
      omega)
    rw [readItems, hx, Option.bind_some]
    dsimp only
    rw [skip_cons rfl]
    dsimp only
    rw [if_pos rfl, skip_print, hys]
    rfl

theorem readFields_print {k : Units} (hkeys : ∀ f ∈ (k, v) :: fs, ∀ u ∈ f.1, u < 0x10000)
    (h : ∀ f ∈ (k, v) :: fs, ReadsBack f.2) (rest : Units) :
    ∀ fuel, 2 * (quote k ++ 0x3a :: (print v ++ (printFields fs ++ rest))).length + 1 < fuel →
      readFields fuel (quote k ++ 0x3a :: (print v ++ (printFields fs ++ rest))) =
      some (mapFields .finite ((k, v) :: fs), rest) := by
  induction fs generalizing k v with
  | nil =>
    intro fuel hfuel
    obtain ⟨fuel, rfl⟩ := Nat.exists_eq_add_one_of_ne_zero (show fuel ≠ 0 by omega)
    have hvalue : ReadsBack v := h (k, v) List.mem_cons_self
    have hv := hvalue fuel (printFields [] ++ rest) (EndsNumber.cons (by decide) _) (by
      rw [quote_append, List.length_cons, List.length_append, List.length_cons, List.length_cons] at hfuel
      omega)
    rw [quote_append, readFields, if_pos rfl, readString_quote (hkeys _ List.mem_cons_self), Option.bind_some]
    dsimp only
    rw [skip_cons rfl]
    dsimp only
    rw [if_pos rfl, skip_print, hv, Option.bind_some]
    rfl
  | cons f fs ih =>
    obtain ⟨l, w⟩ := f
    intro fuel hfuel
    obtain ⟨fuel, rfl⟩ := Nat.exists_eq_add_one_of_ne_zero (show fuel ≠ 0 by omega)
    have hsplit : printFields ((l, w) :: fs) ++ rest = 0x2c :: (quote l ++ 0x3a :: (print w ++ (printFields fs ++ rest))) := by
      simp [printFields]
    rw [hsplit] at hfuel ⊢
    rw [quote_append, List.length_cons, List.length_append, List.length_cons, List.length_cons, List.length_append,
      List.length_cons] at hfuel
    have hends : EndsNumber (0x2c :: (quote l ++ 0x3a :: (print w ++ (printFields fs ++ rest)))) := EndsNumber.cons (by decide) _
    have hvalue : ReadsBack v := h (k, v) List.mem_cons_self
    have hv := hvalue fuel _ hends (by
      rw [List.length_append, List.length_cons]
      omega)
    have hfs := ih (fun g hg => hkeys g (List.mem_cons_of_mem _ hg)) (fun g hg => h g (List.mem_cons_of_mem _ hg)) fuel (by omega)
    rw [quote_append k, readFields, if_pos rfl, readString_quote (hkeys _ List.mem_cons_self), Option.bind_some]
    dsimp only
    rw [skip_cons rfl]
    dsimp only
    rw [if_pos rfl, skip_print, hv, Option.bind_some]
    dsimp only
    rw [skip_cons rfl]
    dsimp only
    rw [if_pos rfl]
    have hkey : skip (quote l ++ 0x3a :: (print w ++ (printFields fs ++ rest))) = quote l ++
        0x3a :: (print w ++ (printFields fs ++ rest)) := by
      rw [quote_append]
      exact skip_cons rfl _
    rw [hkey, hfs]
    rfl

theorem readsBack_arr (h : ∀ x ∈ xs, ReadsBack x) : ReadsBack (.arr xs) := by
  intro fuel rest hrest hfuel
  obtain ⟨fuel, rfl⟩ := Nat.exists_eq_add_one_of_ne_zero (show fuel ≠ 0 by omega)
  cases xs with
  | nil => rfl
  | cons x xs =>
    have hsplit : print (.arr (x :: xs)) ++ rest = 0x5b :: (print x ++ (printItems xs ++ rest)) := by
      simp [print]
    rw [hsplit, List.length_cons] at hfuel
    have hitems := readItems_print h rest fuel (by omega)
    obtain ⟨u, more, hprint, hspace, hclose, _⟩ := print_start x
    rw [hsplit, readValue, if_neg (by decide), if_pos rfl, skip_print]
    rw [hprint, List.cons_append] at hitems ⊢
    dsimp only
    rw [if_neg hclose, hitems]
    rfl

theorem readsBack_obj (hnodup : (fs.map Prod.fst).Nodup) (horder : ownOrder fs = fs) (hkeys : ∀ f ∈ fs, ∀ u ∈ f.1, u < 0x10000)
    (h : ∀ f ∈ fs, ReadsBack f.2) : ReadsBack (.obj fs) := by
  intro fuel rest hrest hfuel
  obtain ⟨fuel, rfl⟩ := Nat.exists_eq_add_one_of_ne_zero (show fuel ≠ 0 by omega)
  have hrecord : record (mapFields Double.Number.finite fs) = mapFields .finite fs := record_mapFields hnodup horder
  cases fs with
  | nil => rfl
  | cons f fs =>
    obtain ⟨k, v⟩ := f
    have hsplit : print (.obj ((k, v) :: fs)) ++ rest = 0x7b :: (quote k ++ 0x3a :: (print v ++ (printFields fs ++ rest))) := by
      simp [print]
    rw [hsplit, List.length_cons] at hfuel
    have hfields := readFields_print hkeys h rest fuel (by omega)
    rw [hsplit, readValue, if_neg (by decide), if_neg (by decide), if_pos rfl]
    rw [quote_append] at hfields ⊢
    rw [skip_cons rfl]
    dsimp only
    rw [if_neg (by decide), hfields, Option.map_some, hrecord]
    rfl

theorem readsBack (h : Proper v) : ReadsBack v := by
  induction v using inductionOn with
  | null =>
    intro fuel rest hrest hfuel
    obtain ⟨fuel, rfl⟩ := Nat.exists_eq_add_one_of_ne_zero (show fuel ≠ 0 by omega)
    exact readLiteral "null" .null rest
  | bool b =>
    intro fuel rest hrest hfuel
    obtain ⟨fuel, rfl⟩ := Nat.exists_eq_add_one_of_ne_zero (show fuel ≠ 0 by omega)
    cases b with
    | true => exact readLiteral "true" (.bool true) rest
    | false => exact readLiteral "false" (.bool false) rest
  | num x => exact readsBack_num x
  | str s =>
    cases h with
    | str h => exact readsBack_str h
  | arr xs ih =>
    cases h with
    | arr h => exact readsBack_arr fun x hx => ih x hx (h x hx)
  | obj fs ih =>
    cases h with
    | obj hnodup horder hkeys h => exact readsBack_obj hnodup horder hkeys fun f hf => ih f hf (h f hf)

/-- `JSON.parse(JSON.stringify(v))`. -/
theorem parse_print (h : Proper v) : parse (print v) = some (mapNumbers .finite v) := by
  have hread := readsBack h (2 * (print v).length + 1) [] (by simp [EndsNumber]) (by simp)
  have hskip := skip_print v []
  rw [List.append_nil] at hread hskip
  rw [parse, hskip, hread, Option.bind_some]
  rfl

/-! ## The wire -/

mutual
/-- What `JSON.stringify` writes of a value: `null` for a number that is not finite, `0` for
    `-0`. -/
def written : Json Double.Number → Json Double
  | .null => .null
  | .bool b => .bool b
  | .num .nan => .null
  | .num (.infinite _) => .null
  | .num .negZero => .num Double.zero
  | .num (.finite x) => .num x
  | .str s => .str s
  | .arr xs => .arr (writtenItems xs)
  | .obj fs => .obj (writtenFields fs)
def writtenItems : List (Json Double.Number) → List (Json Double)
  | [] => []
  | x :: xs => written x :: writtenItems xs
def writtenFields : List (Units × Json Double.Number) → List (Units × Json Double)
  | [] => []
  | (k, v) :: fs => (k, written v) :: writtenFields fs
end

def stringify (v : Json Double.Number) : Units := print (written v)

/-- The value the other side of a wire sees. -/
def onWire (v : Json Double.Number) : Json Double.Number := mapNumbers .finite (written v)

theorem writtenItems_eq (xs : List (Json Double.Number)) : writtenItems xs = xs.map written := by
  induction xs with
  | nil => rfl
  | cons x xs ih => rw [writtenItems, ih, List.map_cons]

theorem writtenFields_eq (fs : List (Units × Json Double.Number)) : writtenFields fs = fs.map (Prod.map id written) := by
  induction fs with
  | nil => rfl
  | cons field fs ih =>
    obtain ⟨k, v⟩ := field
    rw [writtenFields, ih, List.map_cons]
    rfl

@[simp] theorem onWire_null : onWire .null = .null := rfl

@[simp] theorem onWire_bool (b : Bool) : onWire (.bool b) = .bool b := rfl

@[simp] theorem onWire_finite (x : Double) : onWire (.num (.finite x)) = .num (.finite x) := rfl

@[simp] theorem onWire_negZero : onWire (.num .negZero) = .num (.finite Double.zero) := rfl

@[simp] theorem onWire_str (s : Units) : onWire (.str s) = .str s := rfl

@[simp] theorem onWire_arr (xs : List (Json Double.Number)) : onWire (.arr xs) = .arr (xs.map onWire) := by
  rw [onWire, written, mapNumbers, mapItems_eq, writtenItems_eq, List.map_map]
  rfl

@[simp] theorem onWire_obj (fs : List (Units × Json Double.Number)) : onWire (.obj fs) = .obj (fs.map (Prod.map id onWire)) := by
  rw [onWire, written, mapNumbers, mapFields_eq, writtenFields_eq, List.map_map]
  rfl

theorem proper_written {v : Json Double.Number} (h : Proper v) : Proper (written v) := by
  induction v using inductionOn with
  | null => exact .null
  | bool b => exact .bool b
  | num n =>
    cases n with
    | nan => exact .null
    | infinite negative => exact .null
    | negZero => exact .num _
    | finite x => exact .num x
  | str s =>
    cases h with
    | str h => exact .str h
  | arr xs ih =>
    cases h with
    | arr h =>
      rw [written, writtenItems_eq]
      apply Proper.arr
      intro y hy
      obtain ⟨x, hx, rfl⟩ := List.mem_map.mp hy
      exact ih x hx (h x hx)
  | obj fs ih =>
    cases h with
    | obj hnodup horder hkeys h =>
      rw [written, writtenFields_eq]
      apply Proper.obj
      · rw [List.map_map]
        exact hnodup
      · rw [ownOrder_map, horder]
      · intro g hg
        obtain ⟨f, hf, rfl⟩ := List.mem_map.mp hg
        exact hkeys f hf
      · intro g hg
        obtain ⟨f, hf, rfl⟩ := List.mem_map.mp hg
        exact ih f hf (h f hf)

/-- A value crosses the wire whole, but for its numbers. -/
theorem parse_stringify {v : Json Double.Number} (h : Proper v) : parse (stringify v) = some (onWire v) :=
  parse_print (proper_written h)

/-! ## The text is Unicode -/

theorem isUnicode_cons (h : u < 0xD800) (hrest : IsUnicode rest) : IsUnicode (u :: rest) :=
  isUnicode_append (isUnicode_unit (Or.inl h)) hrest

theorem isUnicode_numeral (x : Double) : IsUnicode x.text := by
  apply isUnicode_of_lt
  intro u hu
  have hunit := Double.isNumeralUnit_text x u hu
  simp only [isNumeralUnit, Bool.or_eq_true, Bool.and_eq_true, decide_eq_true_eq, beq_iff_eq] at hunit
  omega

theorem isUnicode_printItems (h : ∀ x ∈ xs, IsUnicode (print x)) : IsUnicode (printItems xs) := by
  induction xs with
  | nil => exact isUnicode_unit (Or.inl (by decide))
  | cons x xs ih =>
    have hrest := ih fun y hy => h y (List.mem_cons_of_mem _ hy)
    exact isUnicode_cons (by decide) (isUnicode_append (h x List.mem_cons_self) hrest)

theorem isUnicode_printFields (hkeys : ∀ f ∈ fs, ∀ u ∈ f.1, u < 0x10000) (h : ∀ f ∈ fs, IsUnicode (print f.2)) :
    IsUnicode (printFields fs) := by
  induction fs with
  | nil => exact isUnicode_unit (Or.inl (by decide))
  | cons f fs ih =>
    obtain ⟨k, v⟩ := f
    have hrest := ih (fun g hg => hkeys g (List.mem_cons_of_mem _ hg)) fun g hg => h g (List.mem_cons_of_mem _ hg)
    have hkey := isUnicode_quote k (hkeys (k, v) List.mem_cons_self)
    have hvalue := h (k, v) List.mem_cons_self
    exact isUnicode_cons (by decide) (isUnicode_append hkey (isUnicode_cons (by decide) (isUnicode_append hvalue hrest)))

/-- Every surrogate of a value's texts is escaped or one of a pair. -/
theorem isUnicode_print (h : Proper v) : IsUnicode (print v) := by
  induction v using inductionOn with
  | null => exact ⟨"null", rfl⟩
  | bool b => cases b <;> exact ⟨_, rfl⟩
  | num x => exact isUnicode_numeral x
  | str s =>
    cases h with
    | str h => exact isUnicode_quote s h
  | arr xs ih =>
    cases h with
    | arr h =>
      cases xs with
      | nil => exact ⟨"[]", rfl⟩
      | cons x xs =>
        have hprinted : ∀ y ∈ x :: xs, IsUnicode (print y) := fun y hy => ih y hy (h y hy)
        rw [print]
        exact isUnicode_cons (by decide) (isUnicode_append (hprinted x List.mem_cons_self)
          (isUnicode_printItems fun y hy => hprinted y (List.mem_cons_of_mem _ hy)))
  | obj fs ih =>
    cases h with
    | obj _ _ hkeys h =>
      cases fs with
      | nil => exact ⟨"\x7b\x7d", rfl⟩
      | cons f fs =>
        obtain ⟨k, v⟩ := f
        have hprinted : ∀ g ∈ (k, v) :: fs, IsUnicode (print g.2) := fun g hg => ih g hg (h g hg)
        have hfields := isUnicode_printFields (fun g hg => hkeys g (List.mem_cons_of_mem _ hg))
          fun g hg => hprinted g (List.mem_cons_of_mem _ hg)
        rw [print]
        exact isUnicode_cons (by decide) (isUnicode_append (isUnicode_quote k (hkeys (k, v) List.mem_cons_self))
          (isUnicode_cons (by decide) (isUnicode_append (hprinted (k, v) List.mem_cons_self) hfields)))

theorem isUnicode_stringify {v : Json Double.Number} (h : Proper v) : IsUnicode (stringify v) :=
  isUnicode_print (proper_written h)

/-! ## Objects of named members -/

theorem onWire_object (fields : List (String × Json Double.Number)) :
    onWire (object fields) = object (fields.map (Prod.map id onWire)) := by
  rw [object, onWire_obj, object, names, names, List.map_map, List.map_map]
  rfl

theorem map_present (name : String) (value : Option (Json Double.Number)) :
    (present name value).map (Prod.map id onWire) = present name (value.map onWire) := by
  cases value <;> rfl

theorem present_sublist (name : String) (value : Option (Json N)) : ((present name value).map Prod.fst).Sublist [name] := by
  cases value with
  | none => exact List.nil_sublist _
  | some value => exact .refl _

/-- An object whose members' names are distinct and no indexes. -/
theorem proper_object (known : List String) {fields : List (String × Json N)} (hsub : (fields.map Prod.fst).Sublist known)
    (hnodup : known.Nodup) (hindex : ∀ name ∈ known, arrayIndex (codeUnits name) = none) (h : ∀ field ∈ fields, field.2.Proper) :
    (object fields).Proper := by
  have hname : ∀ field ∈ names fields, ∃ other ∈ fields, field = (codeUnits other.1, other.2) := by
    intro field hfield
    obtain ⟨other, hother, rfl⟩ := List.mem_map.mp hfield
    exact ⟨other, hother, rfl⟩
  apply Proper.obj
  · exact nodup_names (hsub.nodup hnodup)
  · apply ownOrder_of_pairwise
    apply List.pairwise_of_forall_mem_list
    intro a ha b hb
    obtain ⟨other, hother, rfl⟩ := hname b hb
    have hnone := hindex other.1 (hsub.subset (List.mem_map_of_mem hother))
    unfold Before
    rw [hnone]
    cases arrayIndex a.1 <;> trivial
  · intro field hfield
    obtain ⟨other, _, rfl⟩ := hname field hfield
    exact codeUnits_lt other.1
  · intro field hfield
    obtain ⟨other, hother, rfl⟩ := hname field hfield
    exact h other hother

end Fabrika.Lib.Json
