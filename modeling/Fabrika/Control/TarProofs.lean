/-
  Fabrika.Control.TarProofs — the tar codecs invert (see `Fabrika.Control.Tar`).

  - `paxRounds_eq`: the search for a record's length ends in its third turn at the latest, with
    a length the record has.
  - `paxRecordsFrom_records`: records behind one another read back as their pairs.
  - `tarHeader_eq`: a header is its fields in order; `header_reads_back` reads them, and its
    checksum, which counts its own field as blanks.
  - `marks_surrogates_and_empty_keywords_are_lost`: what the codecs do not carry.
-/

import Fabrika.Control.Tar
import Fabrika.Lib.Text

namespace Fabrika.Control.Tar

open Fabrika.Lib
open Fabrika.Lib.Fields
open Fabrika.Lib.Double (digits)
open Fabrika.Lib.Urlencoded (Bytes)

/-! ## Texts and their bytes -/

theorem encode_codeUnits (s : String) : encode (codeUnits s) = Urlencoded.utf8 s := by
  rw [encode, usvString_codeUnits]

/-- ASCII in front of a text is its own bytes, whatever follows. -/
theorem encode_ascii_append {front : Units} (h : ∀ u ∈ front, u < 0x80) (text : Units) :
    encode (front ++ text) = front.map UInt8.ofNat ++ encode text := by
  induction front with
  | nil => rfl
  | cons u rest ih =>
    have hu := h u List.mem_cons_self
    have hcode : (Char.ofNat u).toNat = u := toNat_ofNat (.inl (by omega))
    have hone : String.utf8EncodeChar (Char.ofNat u) = [UInt8.ofNat u] := by
      rw [Utf8.utf8EncodeChar_ascii (by omega), hcode]
    have hrest := ih fun v hv => h v (List.mem_cons_of_mem _ hv)
    rw [encode, usvString, Utf8.utf8_ofList] at hrest ⊢
    rw [List.cons_append, codePoints_cons (.inl (by omega)), List.map_cons, List.flatMap_cons, hone, hrest]
    rfl

variable {text key value : Units} {length : Nat} {bytes : Bytes}

theorem encode_ascii (h : ∀ u ∈ text, u < 0x80) : encode text = text.map UInt8.ofNat := by
  have happend := encode_ascii_append h []
  rw [List.append_nil] at happend
  rw [happend]
  exact List.append_nil _

/-- A text without a lone surrogate that starts with no byte order mark reads back. -/
theorem decodeUtf8_encode (h : IsUnicode text) (hmark : text.head? ≠ some 0xfeff) : decodeUtf8 (encode text) = .ok text := by
  obtain ⟨s, rfl⟩ := h
  have hhead : s.toList.head? ≠ some Utf8.mark := by
    intro hs
    apply hmark
    cases hlist : s.toList with
    | nil =>
      rw [hlist] at hs
      cases hs
    | cons c rest =>
      rw [hlist] at hs
      cases hs
      rw [codeUnits, hlist, List.flatMap_cons]
      rfl
  rw [decodeUtf8, encode_codeUnits, Utf8.decodeFatal_utf8 hhead]

/-- The byte of an ASCII character stands in a text's bytes only for that character. -/
theorem not_mem_encode (h : IsUnicode text) {b : UInt8} (hb : b.toNat < 0x80) (hnot : b.toNat ∉ text) : b ∉ encode text := by
  obtain ⟨s, rfl⟩ := h
  rw [encode_codeUnits]
  intro hmem
  obtain ⟨c, hc, hbyte⟩ := List.mem_flatMap.mp hmem
  refine Urlencoded.not_mem_utf8EncodeChar hb (fun hcode => hnot ?_) hbyte
  refine List.mem_flatMap.mpr ⟨c, hc, ?_⟩
  rw [if_pos (by omega), List.mem_singleton, hcode]

/-! ## The length of a pax record -/

theorem digits_lt (n : Nat) : ∀ u ∈ digits n, u < 0x80 := by
  intro u hu
  have hdigit := Double.isDigit_of_mem_digits u hu
  simp only [Json.isDigit, Bool.and_eq_true, decide_eq_true_eq] at hdigit
  omega

theorem encode_paxText (length : Nat) (body : Units) :
    encode (paxText length body) = (digits length).map UInt8.ofNat ++ 0x20 :: encode body := by
  have hblank : encode ([0x20] ++ body) = [0x20].map UInt8.ofNat ++ encode body := encode_ascii_append (by simp) body
  rw [paxText, encode_ascii_append (digits_lt length)]
  congr 1

theorem length_paxText (length : Nat) (body : Units) :
    (encode (paxText length body)).length = (digits length).length + 1 + (encode body).length := by
  rw [encode_paxText]
  simp only [List.length_append, List.length_map, List.length_cons]
  omega

theorem length_digits_le (n k : Nat) (hk : 0 < k) : (digits n).length ≤ k ↔ n < 10 ^ k := by
  rw [digits, List.length_map]
  exact Nat.length_toDigits_le_iff (by decide) hk

variable {n width : Nat}

theorem length_digits_eq {k : Nat} (hk : 0 < k) (hlow : 10 ^ k ≤ n) (hhigh : n < 10 ^ (k + 1)) :
    (digits n).length = k + 1 := by
  have hle := (length_digits_le n (k + 1) (by omega)).mpr hhigh
  have hnot : ¬(digits n).length ≤ k := fun h => absurd ((length_digits_le n k hk).mp h) (by omega)
  omega

/-- A length the record has ends the loop in the turn that tries it. -/
theorem paxRounds_fixed {body : Units} (h : (encode (paxText length body)).length = length) (rounds : Nat) :
    paxRounds body (rounds + 1) length = some (encode (paxText length body)) := by
  rw [paxRounds, if_pos h]

theorem paxRounds_turn {body : Units} (h : (encode (paxText length body)).length ≠ length) (rounds : Nat) :
    paxRounds body (rounds + 1) length = paxRounds body rounds (encode (paxText length body)).length := by
  rw [paxRounds, if_neg h]

/-- The loop ends in its third turn at the latest: past the first guess the count of digits
    grows at most once. -/
theorem paxRounds_eq (body : Units) : ∃ length, (encode (paxText length body)).length = length ∧
    ∀ rounds, paxRounds body (rounds + 3) (paxStart body) = some (encode (paxText length body)) := by
  obtain ⟨k, hk⟩ : ∃ k, (digits (paxStart body)).length = k := ⟨_, rfl⟩
  have hpos : 0 < k := by
    rw [← hk]
    exact List.length_pos_of_ne_nil (Double.digits_ne_nil _)
  have hstart : paxStart body < 10 ^ k := (length_digits_le _ k hpos).mp (by omega)
  have hfirst : (encode (paxText (paxStart body) body)).length = k + 1 + (encode body).length := by
    rw [length_paxText, hk]
  have hpow : k < 10 ^ k := Nat.lt_pow_self (by decide)
  have hpow' : 10 ^ (k + 1) = 10 * 10 ^ k := by rw [pow_succ, Nat.mul_comm]
  have hguess : paxStart body = (encode body).length + 3 := rfl
  by_cases htwo : k = 2
  · -- Two digits, a blank and the body: the first guess.
    have hfixed : (encode (paxText (paxStart body) body)).length = paxStart body := by omega
    exact ⟨paxStart body, hfixed, fun rounds => paxRounds_fixed hfixed (rounds + 2)⟩
  obtain ⟨second, hsecond⟩ : ∃ second, second = k + 1 + (encode body).length := ⟨_, rfl⟩
  have hne : (encode (paxText (paxStart body) body)).length ≠ paxStart body := by omega
  have hturn : ∀ rounds, paxRounds body (rounds + 3) (paxStart body) = paxRounds body (rounds + 2) second := by
    intro rounds
    rw [paxRounds_turn hne, hfirst, ← hsecond]
  by_cases hsame : second < 10 ^ k
  · have hlow : (digits second).length = k := by
      have hle := (length_digits_le second k hpos).mpr hsame
      by_contra hless
      have hpred : (digits second).length ≤ k - 1 := by omega
      by_cases hone : k = 1
      · have hne := List.length_pos_of_ne_nil (Double.digits_ne_nil second)
        omega
      · have hsmall := (length_digits_le second (k - 1) (by omega)).mp hpred
        have hbefore := (length_digits_le (paxStart body) (k - 1) (by omega)).mpr (by omega)
        omega
    have hfixed : (encode (paxText second body)).length = second := by
      rw [length_paxText, hlow]
      omega
    exact ⟨second, hfixed, fun rounds => (hturn rounds).trans (paxRounds_fixed hfixed (rounds + 1))⟩
  · -- The guess took a digit more, once: the next length has as many.
    have hlength : (digits second).length = k + 1 := length_digits_eq hpos (by omega) (by omega)
    obtain ⟨third, hthird⟩ : ∃ third, third = second + 1 := ⟨_, rfl⟩
    have hnext : (encode (paxText second body)).length = third := by
      rw [length_paxText, hlength]
      omega
    have hlast : (digits third).length = k + 1 := length_digits_eq hpos (by omega) (by omega)
    have hfixed : (encode (paxText third body)).length = third := by
      rw [length_paxText, hlast]
      omega
    refine ⟨third, hfixed, fun rounds => ?_⟩
    rw [hturn, paxRounds_turn (by omega), hnext, paxRounds_fixed hfixed]

/-! ## Reading pax records -/

theorem encode_append {a b : Units} (ha : IsUnicode a) (hb : IsUnicode b) : encode (a ++ b) = encode a ++ encode b := by
  obtain ⟨s, rfl⟩ := ha
  obtain ⟨t, rfl⟩ := hb
  have happend : codeUnits s ++ codeUnits t = codeUnits (s ++ t) := by
    simp [codeUnits]
  rw [happend, encode_codeUnits, encode_codeUnits, encode_codeUnits, Utf8.utf8_append]

theorem idxOf_append {α : Type} [BEq α] [LawfulBEq α] {a : α} {front : List α} (h : a ∉ front) (rest : List α) :
    (front ++ a :: rest).idxOf? a = some front.length := by
  induction front with
  | nil => simp [List.idxOf?_cons]
  | cons b front ih =>
    obtain ⟨hb, hfront⟩ := List.ne_and_not_mem_of_not_mem_cons h
    simp [List.idxOf?_cons, Ne.symm hb, ih hfront]

/-- A length is written without leading zeros. -/
theorem digits_head (hn : 0 < n) : ∃ u rest, digits n = u :: rest ∧ 0x31 ≤ u ∧ u ≤ 0x39 := by
  induction n using Nat.strongRecOn with
  | ind n ih =>
    by_cases hsmall : n < 10
    · have hone : digits n = [n.digitChar.toNat] := by
        rw [digits, Nat.toDigits_of_lt_base hsmall, List.map_singleton]
      refine ⟨n.digitChar.toNat, [], hone, ?_⟩
      interval_cases n <;> decide
    · obtain ⟨u, rest, hdigits, hu⟩ := ih (n / 10) (by omega) (by omega)
      refine ⟨u, rest ++ [(n % 10).digitChar.toNat], ?_, hu⟩
      rw [digits] at hdigits ⊢
      rw [Nat.toDigits_of_base_le (by decide) (by omega), List.map_append, hdigits]
      rfl

theorem isDecimal_digits (hn : 0 < n) : isDecimal (digits n) = true := by
  obtain ⟨u, rest, hdigits, hlow, hhigh⟩ := digits_head hn
  have hall : rest.all Json.isDigit = true := by
    rw [List.all_eq_true]
    intro v hv
    have hmem : v ∈ digits n := by
      rw [hdigits]
      exact List.mem_cons_of_mem _ hv
    exact Double.isDigit_of_mem_digits v hmem
  simp [hdigits, isDecimal, hlow, hhigh, hall]

/-- The record of a text, with anything behind it, is read as that text. -/
theorem readPaxRecord_text {record : Units} (hrecord : IsUnicode record) (hmark : record.head? ≠ some 0xfeff)
    (hlength : (encode (paxText length (record ++ [0x0a]))).length = length) (hsafe : length ≤ maxSafeInteger) (more : Bytes) :
    readPaxRecord (encode (paxText length (record ++ [0x0a])) ++ more) =
      match record.idxOf? 0x3d with
      | none => .error archiveRejected
      | some 0 => .error archiveRejected
      | some separator => .ok (length, record.take separator, record.drop (separator + 1)) := by
  obtain ⟨declared, hdeclared⟩ : ∃ declared, declared = (digits length).map UInt8.ofNat := ⟨_, rfl⟩
  have hend : encode (record ++ [0x0a]) = encode record ++ [0x0a] :=
    encode_append hrecord (isUnicode_of_lt (by simp))
  have hbytes : encode (paxText length (record ++ [0x0a])) = declared ++ 0x20 :: (encode record ++ [0x0a]) := by
    rw [encode_paxText, hend, hdeclared]
  have hsum : declared.length + 1 + (encode record).length + 1 = length := by
    rw [hbytes] at hlength
    simp only [List.length_append, List.length_cons, List.length_nil] at hlength
    omega
  have hdigits : declared = encode (digits length) := by
    rw [hdeclared, encode_ascii (digits_lt length)]
  have hunicode : IsUnicode (digits length) := isUnicode_of_lt fun u hu => lt_trans (digits_lt length u hu) (by decide)
  have hhead : (digits length).head? ≠ some 0xfeff := by
    intro h
    have := digits_lt length 0xfeff (List.mem_of_mem_head? h)
    omega
  have hblank : (0x20 : UInt8) ∉ declared := by
    rw [hdigits]
    refine not_mem_encode hunicode (by decide) fun hmem => ?_
    have hdigit := Double.isDigit_of_mem_digits _ hmem
    revert hdigit
    decide
  have hpos : 0 < declared.length := by
    rw [hdeclared, List.length_map]
    exact List.length_pos_of_ne_nil (Double.digits_ne_nil _)
  have hwhole : declared ++ 0x20 :: (encode record ++ [0x0a]) ++ more = declared ++ 0x20 :: (encode record ++ 0x0a :: more) := by
    simp
  have hlast : (declared ++ 0x20 :: (encode record ++ 0x0a :: more))[length - 1]? = some 0x0a := by
    have hfront : (declared ++ 0x20 :: encode record).length = length - 1 := by
      rw [List.length_append, List.length_cons]
      omega
    have hsplit : declared ++ 0x20 :: (encode record ++ 0x0a :: more) = (declared ++ 0x20 :: encode record) ++ 0x0a :: more := by
      simp
    rw [hsplit, ← hfront, List.getElem?_append_right le_rfl, Nat.sub_self, List.getElem?_cons_zero]
  have hslice : ((declared ++ 0x20 :: (encode record ++ 0x0a :: more)).take (length - 1)).drop (declared.length + 1) =
      encode record := by
    have hsplit : declared ++ 0x20 :: (encode record ++ 0x0a :: more) = (declared ++ [0x20]) ++
        (encode record ++ 0x0a :: more) := by simp
    have hfront : (declared ++ [0x20]).length = declared.length + 1 := by simp
    have hafter : length - 1 - (declared.length + 1) = (encode record).length := by omega
    rw [List.drop_take, hsplit, ← hfront, List.drop_left, hfront, hafter, List.take_left]
  rw [hbytes, hwhole, readPaxRecord, idxOf_append hblank]
  split
  · next h => cases h
  · next h => exact absurd (Option.some.inj h) (by omega)
  · next space _ h =>
    obtain rfl := Option.some.inj h
    have hfits : ¬(maxSafeInteger < length ∨ length ≤ declared.length + 1 ∨
        (declared ++ 0x20 :: (encode record ++ 0x0a :: more)).length < length ∨
        (declared ++ 0x20 :: (encode record ++ 0x0a :: more))[length - 1]? ≠ some 0x0a) := by
      rw [hlast]
      simp only [List.length_append, List.length_cons, ne_eq, not_true_eq_false, or_false]
      omega
    rw [List.take_left, hdigits, decodeUtf8_encode hunicode hhead]
    simp only [bind, Except.bind]
    rw [if_pos (isDecimal_digits (by omega)), Double.decimal_digits, ← hdigits, if_neg hfits, hslice]
    have hread := decodeUtf8_encode hrecord hmark
    generalize decodeUtf8 (encode record) = answer at hread ⊢
    subst hread
    rfl

theorem setRecord_new {records : List (Units × Units)} (h : key ∉ records.map Prod.fst) :
    setRecord key value records = records ++ [(key, value)] := by
  induction records with
  | nil => rfl
  | cons record rest ih =>
    obtain ⟨hkey, hrest⟩ := List.ne_and_not_mem_of_not_mem_cons h
    rw [setRecord, if_neg (Ne.symm hkey), ih hrest, List.cons_append]

/-- A keyword a record can carry: a text that is not empty, without `=` or white space. -/
structure Keyword (key : Units) : Prop where
  unicode : IsUnicode key
  nonempty : key ≠ []
  noEquals : 0x3d ∉ key
  noSpace : ∀ u ∈ key, Double.isWhiteSpace u = false

theorem Keyword.noMark (h : Keyword key) (rest : Units) : (key ++ rest).head? ≠ some 0xfeff := by
  cases key with
  | nil => exact absurd rfl h.nonempty
  | cons u more =>
    intro hmark
    cases hmark
    exact absurd (h.noSpace 0xfeff List.mem_cons_self) (by decide)

/-- What `paxRecord` answers: the body behind the length of all of it. -/
theorem paxRecord_eq_some (h : paxRecord key value = some bytes) :
    bytes = encode (paxText bytes.length (paxBody key value)) := by
  obtain ⟨length, hlength, hrounds⟩ := paxRounds_eq (paxBody key value)
  obtain rfl := Option.some.inj (h.symm.trans (hrounds 0))
  rw [hlength]

theorem readPaxRecord_record (hkey : Keyword key) (hvalue : IsUnicode value) (h : paxRecord key value = some bytes)
    (hsafe : bytes.length ≤ maxSafeInteger) (more : Bytes) :
    readPaxRecord (bytes ++ more) = .ok (bytes.length, key, value) := by
  have hbytes := paxRecord_eq_some h
  obtain ⟨length, hlength⟩ : ∃ length, bytes.length = length := ⟨_, rfl⟩
  rw [hlength] at hbytes hsafe ⊢
  have hbody : paxBody key value = (key ++ 0x3d :: value) ++ [0x0a] := rfl
  rw [hbody] at hbytes
  have hrecord : IsUnicode (key ++ 0x3d :: value) :=
    isUnicode_append hkey.unicode (isUnicode_append (a := [0x3d]) (isUnicode_of_lt (by simp)) hvalue)
  rw [hbytes, readPaxRecord_text hrecord (hkey.noMark _) (by rw [← hbytes, hlength]) hsafe, idxOf_append hkey.noEquals]
  have hpos : 0 < key.length := List.length_pos_of_ne_nil hkey.nonempty
  split
  · next h => cases h
  · next h => exact absurd (Option.some.inj h) (by omega)
  · next separator _ h =>
    obtain rfl := Option.some.inj h
    rw [List.take_left, List.append_cons, List.drop_left' (by simp)]

theorem paxRecordsFrom_records {pairs : List (Units × Units)} {records : List Bytes}
    (hpairs : ∀ pair ∈ pairs, Keyword pair.1 ∧ IsUnicode pair.2)
    (hrecords : pairs.mapM (fun pair => paxRecord pair.1 pair.2) = some records) (hsafe : records.flatten.length ≤ maxSafeInteger)
    {read : List (Units × Units)} (hdistinct : ((read ++ pairs).map Prod.fst).Nodup) :
    paxRecordsFrom read records.flatten = .ok (read ++ pairs) := by
  induction pairs generalizing records read with
  | nil =>
    rw [List.mapM_nil] at hrecords
    cases hrecords
    rw [List.flatten_nil, paxRecordsFrom, if_pos rfl, List.append_nil]
  | cons pair pairs ih =>
    obtain ⟨key, value⟩ := pair
    rw [List.mapM_cons] at hrecords
    obtain ⟨bytes, hbytes, hrecords⟩ := Option.bind_eq_some_iff.mp hrecords
    obtain ⟨others, hothers, hrecords⟩ := Option.bind_eq_some_iff.mp hrecords
    cases hrecords
    rw [List.flatten_cons, List.length_append] at hsafe
    obtain ⟨hkey, hvalue⟩ := hpairs (key, value) List.mem_cons_self
    have hread := readPaxRecord_record hkey hvalue hbytes (by omega) others.flatten
    have hne : bytes ++ others.flatten ≠ [] := by
      have hpos := (readPaxRecord_length hread).1
      exact List.append_ne_nil_of_left_ne_nil (List.ne_nil_of_length_pos hpos) _
    have hnew : key ∉ read.map Prod.fst := by
      rw [List.map_append, List.map_cons] at hdistinct
      exact fun hmem => (List.nodup_append.mp hdistinct).2.2 key hmem key List.mem_cons_self rfl
    have hsame : read ++ [(key, value)] ++ pairs = read ++ (key, value) :: pairs := by simp
    rw [List.flatten_cons, paxRecordsFrom, if_neg hne]
    split
    · next h =>
      rw [hread] at h
      cases h
    · next h =>
      rw [hread] at h
      cases h
      rw [List.drop_left, setRecord_new hnew,
        ih (fun other hother => hpairs other (List.mem_cons_of_mem _ hother)) hothers (by omega) (by rw [hsame]; exact hdistinct),
        hsame]

/-! ## Octal fields -/

theorem digitChar_octal {d : Nat} (hd : d < 8) : isOctal d.digitChar.toNat = true := by
  interval_cases d <;> decide

theorem isOctal_of_mem_toDigits (n : Nat) : ∀ c ∈ Nat.toDigits 8 n, isOctal c.toNat = true := by
  induction n using Nat.strongRecOn with
  | ind n ih =>
    intro c hc
    by_cases hsmall : n < 8
    · rw [Nat.toDigits_of_lt_base hsmall, List.mem_singleton] at hc
      rw [hc]
      exact digitChar_octal hsmall
    · rw [Nat.toDigits_of_base_le (by decide) (by omega), List.mem_append, List.mem_singleton] at hc
      rcases hc with hc | rfl
      · exact ih (n / 8) (by omega) c hc
      · exact digitChar_octal (Nat.mod_lt n (by decide))

theorem isOctal_octalText (width n : Nat) : ∀ u ∈ octalText width n, isOctal u = true := by
  intro u hu
  rcases List.mem_append.mp hu with hu | hu
  · rw [List.eq_of_mem_replicate hu]
    decide
  · obtain ⟨c, hc, rfl⟩ := List.mem_map.mp hu
    exact isOctal_of_mem_toDigits n c hc

theorem length_octalText (hwidth : 0 < width) (hn : n < 8 ^ width) : (octalText width n).length = width := by
  have hle := (Nat.length_toDigits_le_iff (b := 8) (by decide) hwidth).mpr hn
  simp only [octalText, List.length_append, List.length_replicate, List.length_map]
  omega

/-- Padding in front does not change the number. -/
theorem octalValue_octalText (width n : Nat) : octalValue (octalText width n) = n := by
  have hzeros : ∀ k, octalValue (List.replicate k 0x30) = 0 := by
    intro k
    induction k with
    | zero => rfl
    | succ k ih => simpa [octalValue, List.replicate_succ] using ih
  have happend : ∀ a b : Units, octalValue a = 0 → octalValue (a ++ b) = octalValue b := by
    intro a b ha
    rw [octalValue, List.foldl_append]
    rw [octalValue] at ha
    rw [ha, octalValue]
  have hdigits : octalValue ((Nat.toDigits 8 n).map Char.toNat) = n := by
    conv_rhs => rw [← Nat.ofDigitChars_toDigits (b := 8) (n := n) (by decide) (by decide), Nat.ofDigitChars_eq_foldl]
    rw [octalValue, List.foldl_map]
    congr 1
    funext sofar c
    rw [Nat.mul_comm]
    rfl
  rw [octalText, happend _ _ (hzeros _), hdigits]

/-! ## Writing a header -/

/-- A text in a field, filled up with NULs. -/
def textField (width : Nat) (bytes : Bytes) : Bytes := bytes ++ List.replicate (width - bytes.length) 0

/-- An octal number of some digits in a field, closed by a NUL. -/
def octalField (digits n : Nat) : Bytes := (octalText digits n).map UInt8.ofNat ++ [0]

theorem length_textField (h : bytes.length ≤ width) : (textField width bytes).length = width := by
  rw [textField, List.length_append, List.length_replicate]
  omega

theorem length_octalField {digits : Nat} (hdigits : 0 < digits) (hn : n < 8 ^ digits) :
    (octalField digits n).length = digits + 1 := by
  rw [octalField, List.length_append, List.length_map, length_octalText hdigits hn, List.length_singleton]

theorem writeTarText_behind {done : Bytes} {offset width room : Nat} (hoffset : done.length = offset)
    (hlength : (encode value).length ≤ width) (hroom : width ≤ room) :
    writeTarText (done ++ List.replicate room 0) offset width value =
      .ok (done ++ textField width (encode value) ++ List.replicate (room - width) 0) := by
  have hfill : List.replicate (room - (encode value).length) (0 : UInt8) =
      List.replicate (width - (encode value).length) 0 ++ List.replicate (room - width) 0 := by
    rw [List.replicate_append_replicate]
    congr 1
    omega
  rw [writeTarText, if_neg (by omega), write_behind hoffset, hfill, textField]
  simp only [List.append_assoc]

theorem encode_octalText (width n : Nat) : encode (octalText width n) = (octalText width n).map UInt8.ofNat := by
  refine encode_ascii fun u hu => ?_
  have hoctal := isOctal_octalText width n u hu
  simp only [isOctal, Bool.and_eq_true, decide_eq_true_eq] at hoctal
  omega

theorem writeTarOctal_behind {done : Bytes} {offset digits room n : Nat} (hoffset : done.length = offset) (hdigits : 0 < digits)
    (hn : n < 8 ^ digits) (hroom : digits + 1 ≤ room) :
    writeTarOctal (done ++ List.replicate room 0) offset (digits + 1) n =
      .ok (done ++ octalField digits n ++ List.replicate (room - (digits + 1)) 0) := by
  have hlength := length_octalText hdigits hn
  have hencoded : (encode (octalText digits n)).length = digits := by
    rw [encode_octalText, List.length_map, hlength]
  have htext : writeTarText (done ++ List.replicate room 0) offset digits (octalText digits n) =
      .ok (done ++ encode (octalText digits n) ++ List.replicate (room - digits) 0) := by
    rw [writeTarText_behind hoffset (by omega) (by omega), textField, hencoded, Nat.sub_self, List.replicate_zero,
      List.append_nil]
  have hend : (done ++ encode (octalText digits n)).length = offset + (digits + 1) - 1 := by
    rw [List.length_append, hencoded]
    omega
  rw [writeTarOctal, Nat.add_sub_cancel, if_neg (by omega), htext, Except.map, write_behind hend, octalField, encode_octalText]
  have hleft : room - digits - [(0 : UInt8)].length = room - (digits + 1) := by
    rw [List.length_singleton]
    omega
  rw [hleft]
  simp only [List.append_assoc]

/-! ## A header as its fields -/

/-- The fields in front of the checksum. -/
def leading (path : Units) (mode size : Nat) : Bytes :=
  textField 100 (encode path) ++ octalField 7 mode ++ octalField 7 0 ++ octalField 7 0 ++ octalField 11 size ++ octalField 11 0

/-- The fields behind the checksum. -/
def trailing (type : TarType) (linkpath : Units) : Bytes :=
  [type.code] ++ textField 100 (encode linkpath) ++ textField 6 (encode (codeUnits "ustar")) ++
    textField 2 (encode (codeUnits "00")) ++
    List.replicate 247 0

/-- The checksum, its own field counted as blanks. -/
def headerSum (path : Units) (mode size : Nat) (type : TarType) (linkpath : Units) : Nat :=
  byteSum (leading path mode size) + 8 * 0x20 + byteSum (trailing type linkpath)

theorem byteSum_append (a b : Bytes) : byteSum (a ++ b) = byteSum a + byteSum b := by
  simp [byteSum]

theorem byteSum_le (bytes : Bytes) : byteSum bytes ≤ 255 * bytes.length := by
  induction bytes with
  | nil => exact Nat.le_refl 0
  | cons b rest ih =>
    have hb := b.toNat_lt
    rw [byteSum, List.map_cons, List.sum_cons, List.length_cons, ← byteSum]
    omega

section
variable {path linkpath : Units} {mode size : Nat} {type : TarType}

theorem length_leading (hpath : (encode path).length ≤ 100) (hmode : mode < 8 ^ 7) (hsize : size < 8 ^ 11) :
    (leading path mode size).length = 148 := by
  simp only [leading, List.length_append, length_textField hpath, length_octalField (show 0 < 7 by decide) hmode,
    length_octalField (show 0 < 7 by decide) (show 0 < 8 ^ 7 by decide), length_octalField (show 0 < 11 by decide) hsize,
    length_octalField (show 0 < 11 by decide) (show 0 < 8 ^ 11 by decide)]

theorem encode_ustar : encode (codeUnits "ustar") = [0x75, 0x73, 0x74, 0x61, 0x72] := by decide

theorem encode_version : encode (codeUnits "00") = [0x30, 0x30] := by decide

theorem length_trailing (hlink : (encode linkpath).length ≤ 100) : (trailing type linkpath).length = 356 := by
  simp only [trailing, List.length_append, List.length_singleton, length_textField hlink, List.length_replicate,
    length_textField (show (encode (codeUnits "ustar")).length ≤ 6 by rw [encode_ustar]; decide),
    length_textField (show (encode (codeUnits "00")).length ≤ 2 by rw [encode_version]; decide)]

section
variable (hpath : (encode path).length ≤ 100) (hlink : (encode linkpath).length ≤ 100) (hmode : mode < 8 ^ 7)
variable (hsize : size < 8 ^ 11)
include hpath hlink hmode hsize

theorem headerSum_lt : headerSum path mode size type linkpath < 8 ^ 6 := by
  have hfront := byteSum_le (leading path mode size)
  have hback := byteSum_le (trailing type linkpath)
  rw [length_leading hpath hmode hsize] at hfront
  rw [length_trailing hlink] at hback
  rw [headerSum]
  omega

/-- The header before its checksum is written: blanks in the checksum's place. -/
theorem tarHeader_blank :
    tarHeader path mode size type linkpath = do
      let header ← writeTarText (leading path mode size ++ List.replicate 8 0x20 ++ trailing type linkpath) 148 6
        (octalText 6 (headerSum path mode size type linkpath))
      return write header 154 [0, 0x20] := by
  have hzero : 0 < 8 ^ 7 := by decide
  have hzero' : 0 < 8 ^ 11 := by decide
  have hseven : 0 < 7 := by decide
  have heleven : 0 < 11 := by decide
  have hname := length_textField hpath
  have hlinkname := length_textField hlink
  have hustar : (encode (codeUnits "ustar")).length ≤ 6 := by rw [encode_ustar]; decide
  have hversion : (encode (codeUnits "00")).length ≤ 2 := by rw [encode_version]; decide
  have hlengths : ∀ n < 8 ^ 7, (octalField 7 n).length = 8 := fun n hn => length_octalField hseven hn
  have hlengths' : ∀ n < 8 ^ 11, (octalField 11 n).length = 12 := fun n hn => length_octalField heleven hn
  have hleading := length_leading hpath hmode hsize
  have hustarname := length_textField hustar
  have hstart : List.replicate blockBytes (0 : UInt8) = [] ++ List.replicate 512 0 := rfl
  have hfold : [] ++ textField 100 (encode path) ++ octalField 7 mode ++ octalField 7 0 ++ octalField 7 0 ++ octalField 11 size ++
      octalField 11 0 = leading path mode size := rfl
  have hroom : 512 - 100 - (7 + 1) - (7 + 1) - (7 + 1) - (11 + 1) - (11 + 1) - (List.replicate 8 (0x20 : UInt8)).length -
      [type.code].length -
      100 - 6 - 2 = 247 := rfl
  have htrailing : leading path mode size ++ List.replicate 8 0x20 ++ [type.code] ++ textField 100 (encode linkpath) ++
      textField 6 (encode (codeUnits "ustar")) ++ textField 2 (encode (codeUnits "00")) ++ List.replicate 247 0 =
        leading path mode size ++ List.replicate 8 0x20 ++ trailing type linkpath := by
    simp only [trailing, List.append_assoc]
  have hsum : byteSum (leading path mode size ++ List.replicate 8 0x20 ++ trailing type linkpath) =
      headerSum path mode size type linkpath := by
    rw [byteSum_append, byteSum_append, headerSum]
    rfl
  rw [tarHeader, hstart, writeTarText_behind (List.length_nil : ([] : Bytes).length = 0) hpath (by decide)]
  simp only [bind, Except.bind]
  rw [writeTarOctal_behind (by simp [hname]) hseven hmode (by decide)]
  dsimp only
  rw [writeTarOctal_behind (by simp [hname, hlengths _ hmode]) hseven hzero (by decide)]
  dsimp only
  rw [writeTarOctal_behind (by simp [hname, hlengths _ hmode, hlengths _ hzero]) hseven hzero (by decide)]
  dsimp only
  rw [writeTarOctal_behind (by simp [hname, hlengths _ hmode, hlengths _ hzero]) heleven hsize (by decide)]
  dsimp only
  rw [writeTarOctal_behind (by simp [hname, hlengths _ hmode, hlengths _ hzero, hlengths' _ hsize]) heleven hzero' (by decide)]
  dsimp only
  rw [hfold, write_behind hleading, write_behind (by simp [hleading]), writeTarText_behind (by simp [hleading]) hlink (by simp)]
  dsimp only
  rw [writeTarText_behind (by simp [hleading, hlinkname]) hustar (by simp)]
  dsimp only
  rw [writeTarText_behind (by simp [hleading, hlinkname, hustarname]) hversion (by simp)]
  dsimp only
  rw [hroom, htrailing, hsum]

/-- A header is its fields in order. -/
theorem tarHeader_eq :
    tarHeader path mode size type linkpath =
      .ok (leading path mode size ++ (octalField 6 (headerSum path mode size type linkpath) ++ [0x20]) ++
        trailing type linkpath) := by
  obtain ⟨sum, hsum⟩ : ∃ sum, headerSum path mode size type linkpath = sum := ⟨_, rfl⟩
  have hlt : sum < 8 ^ 6 := by
    rw [← hsum]
    exact headerSum_lt hpath hlink hmode hsize
  have hleading := length_leading hpath hmode hsize
  have hdigits : (encode (octalText 6 sum)).length = 6 := by
    rw [encode_octalText, List.length_map, length_octalText (by decide) hlt]
  have hblanks : leading path mode size ++ List.replicate 8 0x20 ++ trailing type linkpath =
      leading path mode size ++ List.replicate 6 0x20 ++ (List.replicate 2 0x20 ++ trailing type linkpath) := by
    have height : List.replicate 8 (0x20 : UInt8) = List.replicate 6 0x20 ++ List.replicate 2 0x20 := rfl
    simp only [height, List.append_assoc]
  have htext : write (leading path mode size ++ List.replicate 8 0x20 ++ trailing type linkpath) 148 (encode (octalText 6 sum)) =
      (leading path mode size ++ encode (octalText 6 sum)) ++ List.replicate 2 0x20 ++ trailing type linkpath := by
    rw [hblanks, write_over hleading (by rw [hdigits, List.length_replicate]), List.append_assoc (leading path mode size ++ _)]
  have hend : (leading path mode size ++ encode (octalText 6 sum)).length = 154 := by
    rw [List.length_append, hleading, hdigits]
  rw [tarHeader_blank hpath hlink hmode hsize, hsum, writeTarText, if_neg (by omega), htext]
  show Except.ok (write _ 154 [0, 0x20]) = _
  have htwo : ([0, 0x20] : Bytes).length = (List.replicate 2 (0x20 : UInt8)).length := rfl
  rw [write_over hend htwo, octalField, encode_octalText]
  simp only [List.append_assoc, List.cons_append, List.nil_append]

end

/-! ## Reading a header -/

/-- A field of text is read up to its first NUL, or whole where it has none. -/
theorem headerText_textField {block : Bytes} {offset : Nat} {read : Units}
    (hfield : field block offset width = textField width (encode text)) (hlength : (encode text).length ≤ width)
    (hnul : 0 ∉ encode text) (hread : decodeUtf8 (encode text) = .ok read) : headerText block offset width = .ok read := by
  rw [headerText, hfield]
  by_cases hfull : (encode text).length = width
  · have hnone : (encode text).idxOf? 0 = none := List.idxOf?_eq_none_iff.mpr hnul
    rw [textField, hfull, Nat.sub_self, List.replicate_zero, List.append_nil, hnone]
    exact hread
  · obtain ⟨room, hroom⟩ : ∃ room, width - (encode text).length = room + 1 := ⟨width - (encode text).length - 1, by omega⟩
    rw [textField, hroom, List.replicate_succ, idxOf_append hnul]
    dsimp only
    rw [List.take_left]
    exact hread

theorem trim_octalText (width n : Nat) : Double.trim (octalText width n) = octalText width n := by
  refine Text.strip_eq_self_of_forall fun u hu => ?_
  have hoctal := isOctal_octalText width n u hu
  simp only [isOctal, Bool.and_eq_true, decide_eq_true_eq] at hoctal
  simp only [Double.isWhiteSpace, Bool.or_eq_false_iff, Bool.and_eq_false_iff, decide_eq_false_iff_not, beq_eq_false_iff_ne]
  omega

/-- An octal field is read up to its NUL, whatever fills it up behind. -/
theorem headerOctal_octalField {block : Bytes} {offset width digits n : Nat} {rest : Bytes}
    (hfield : field block offset width = octalField digits n ++ rest) (hdigits : 0 < digits) (hn : n < 8 ^ digits)
    (hsafe : n ≤ maxSafeInteger) :
    headerOctal block offset width = .ok n := by
  have hunits : ∀ u ∈ octalText digits n, 0x30 ≤ u ∧ u ≤ 0x37 := by
    intro u hu
    simpa [isOctal] using isOctal_octalText digits n u hu
  have hunicode : IsUnicode (octalText digits n) := isUnicode_of_lt fun u hu => lt_of_le_of_lt (hunits u hu).2 (by decide)
  have hnul : (0 : UInt8) ∉ encode (octalText digits n) :=
    not_mem_encode hunicode (by decide) fun hmem => absurd (hunits _ hmem).1 (by decide)
  have hmark : (octalText digits n).head? ≠ some 0xfeff := by
    intro h
    exact absurd (hunits _ (List.mem_of_mem_head? h)).2 (by decide)
  have hne : octalText digits n ≠ [] := List.ne_nil_of_length_pos (by rw [length_octalText hdigits hn]; exact hdigits)
  have hall : (octalText digits n).all isOctal = true := List.all_eq_true.mpr (isOctal_octalText digits n)
  have htext : headerText block offset width = .ok (octalText digits n) := by
    rw [headerText, hfield, octalField, ← encode_octalText, List.append_assoc, List.singleton_append, idxOf_append hnul]
    dsimp only
    rw [List.take_left]
    exact decodeUtf8_encode hunicode hmark
  rw [headerOctal, htext]
  simp only [bind, Except.bind]
  rw [trim_octalText, if_neg hne, hall, octalValue_octalText, if_neg (by simp), if_neg (by omega)]

/-! ## The checksum -/

theorem foldl_addByte_outside (bytes : Bytes) : ∀ sum index, index + bytes.length ≤ 148 ∨ 156 ≤ index →
    bytes.foldl addByte (sum, index) = (sum + byteSum bytes, index + bytes.length) := by
  induction bytes with
  | nil => exact fun sum index _ => rfl
  | cons b rest ih =>
    intro sum index hindex
    rw [List.length_cons] at hindex
    have hplain : ¬(148 ≤ index ∧ index < 156) := by omega
    rw [List.foldl_cons, addByte, if_neg hplain, ih _ _ (by omega), byteSum, byteSum, List.map_cons, List.sum_cons,
      List.length_cons]
    congr 1 <;> omega

theorem foldl_addByte_inside (bytes : Bytes) : ∀ sum index, 148 ≤ index → index + bytes.length ≤ 156 →
    bytes.foldl addByte (sum, index) = (sum + bytes.length * 0x20, index + bytes.length) := by
  induction bytes with
  | nil => exact fun sum index _ _ => rfl
  | cons b rest ih =>
    intro sum index hlow hhigh
    rw [List.length_cons] at hhigh
    rw [List.foldl_cons, addByte, if_pos ⟨hlow, by omega⟩, ih _ _ (by omega) (by omega), List.length_cons]
    congr 1 <;> omega

/-- The checksum counts its own field as blanks, whatever it holds. -/
theorem foldl_addByte {check : Bytes} (hcheck : check.length = 8) (hpath : (encode path).length ≤ 100) (hmode : mode < 8 ^ 7)
    (hsize : size < 8 ^ 11) :
    ((leading path mode size ++ check ++ trailing type linkpath).foldl addByte (0, 0)).1 =
    headerSum path mode size type linkpath := by
  have hleading := length_leading hpath hmode hsize
  have hfront := foldl_addByte_outside (leading path mode size) 0 0 (by omega)
  have hinside := foldl_addByte_inside check (byteSum (leading path mode size)) 148 (by omega) (by omega)
  rw [Nat.zero_add, Nat.zero_add, hleading] at hfront
  rw [hcheck] at hinside
  rw [List.foldl_append, List.foldl_append, hfront, hinside, foldl_addByte_outside _ _ _ (by omega), headerSum]

/-! ## A header reads back -/

/-- A text of a header's name or link field, and what is read back of it. -/
structure ReadsName (text read : Units) : Prop where
  short : (encode text).length ≤ 100
  noNul : 0 ∉ encode text
  decodes : decodeUtf8 (encode text) = .ok read

/-- A path or link target a header can carry: a text of at most 100 bytes, without a NUL,
    that starts with no byte order mark. -/
structure HeaderName (text : Units) : Prop where
  unicode : IsUnicode text
  short : (encode text).length ≤ 100
  noNul : 0 ∉ text
  noMark : text.head? ≠ some 0xfeff

theorem HeaderName.reads (h : HeaderName text) : ReadsName text text where
  short := h.short
  noNul := not_mem_encode h.unicode (by decide) h.noNul
  decodes := decodeUtf8_encode h.unicode h.noMark

/-- A leading byte order mark is not read back. -/
theorem readsName_marked (htext : IsUnicode text) (hshort : (encode (0xfeff :: text)).length ≤ 100) (hnul : 0 ∉ text) :
    ReadsName (0xfeff :: text) text where
  short := hshort
  noNul := by
    have hmarked : IsUnicode (0xfeff :: text) := isUnicode_append (a := [0xfeff]) ⟨"\ufeff", rfl⟩ htext
    exact not_mem_encode hmarked (by decide) (List.not_mem_cons_of_ne_of_not_mem (by decide) hnul)
  decodes := by
    obtain ⟨s, rfl⟩ := htext
    have hmark : 0xfeff :: codeUnits s = codeUnits (String.singleton Utf8.mark ++ s) := by
      simp [codeUnits, Utf8.mark]
    rw [decodeUtf8, hmark, encode_codeUnits, Utf8.decodeFatal_mark]

theorem TarType.code_toNat (type : TarType) : type.code ≠ 0 ∧ [type.code.toNat] = codeUnits type.text := by
  cases type <;> decide

section
variable {pathRead linkRead : Units} (hpath : ReadsName path pathRead) (hlink : ReadsName linkpath linkRead)
variable (hmode : mode < 8 ^ 7) (hsize : size < 8 ^ 11)
include hpath hlink hmode hsize

/-- What `parseHeader` reads of a header's fields. -/
theorem parseHeader_fields {check : Bytes} (hcheck : check.length = 8) :
    parseHeader (leading path mode size ++ check ++ trailing type linkpath) =
    .ok ⟨linkRead, pathRead, mode, size, codeUnits type.text⟩ := by
  obtain ⟨block, hblock⟩ : ∃ block, leading path mode size ++ check ++ trailing type linkpath = block := ⟨_, rfl⟩
  have hname := length_textField hpath.short
  have hlinkname := length_textField hlink.short
  have hzero : (octalField 7 0).length = 8 := length_octalField (by decide) (by decide)
  have hmodes : (octalField 7 mode).length = 8 := length_octalField (by decide) hmode
  have hsizes : (octalField 11 size).length = 12 := length_octalField (by decide) hsize
  have hfront := length_leading hpath.short hmode hsize
  have hbehind : (leading path mode size ++ check ++ [type.code]).length = 157 := by
    rw [List.length_append, List.length_append, hfront, hcheck, List.length_singleton]
  have hpathField : field block 0 100 = textField 100 (encode path) := by
    refine field_at ?_ List.length_nil hname
    exact ⟨_, by rw [← hblock, leading, List.nil_append]; simp only [List.append_assoc]; rfl⟩
  have hmodeField : field block 100 8 = octalField 7 mode ++ [] := by
    rw [List.append_nil]
    refine field_at ?_ hname hmodes
    exact ⟨_, by rw [← hblock, leading]; simp only [List.append_assoc]; rfl⟩
  have hsizeField : field block 124 12 = octalField 11 size ++ [] := by
    have hbefore : (textField 100 (encode path) ++ octalField 7 mode ++ octalField 7 0 ++ octalField 7 0).length = 124 := by
      simp only [List.length_append, hname, hmodes, hzero]
    rw [List.append_nil]
    refine field_at ?_ hbefore hsizes
    exact ⟨_, by rw [← hblock, leading]; simp only [List.append_assoc]; rfl⟩
  have htype : block[156]? = some type.code := by
    have hbefore : (leading path mode size ++ check).length = 156 := by
      rw [List.length_append, hfront, hcheck]
    rw [← hblock, trailing, List.getElem?_append_right (by omega), hbefore]
    rfl
  have hlinkField : field block 157 100 = textField 100 (encode linkpath) := by
    refine field_at ?_ hbehind hlinkname
    exact ⟨_, by rw [← hblock, trailing]; simp only [List.append_assoc]; rfl⟩
  have hmagicField : field block 257 6 = textField 6 (encode (codeUnits "ustar")) := by
    have hbefore : (leading path mode size ++ check ++ [type.code] ++ textField 100 (encode linkpath)).length = 257 := by
      rw [List.length_append, hbehind, hlinkname]
    refine field_at ?_ hbefore (length_textField (by rw [encode_ustar]; decide))
    exact ⟨_, by rw [← hblock, trailing]; simp only [List.append_assoc]; rfl⟩
  have hprefixField : field block 345 155 = textField 155 (encode []) := by
    have hbefore : (leading path mode size ++ check ++ [type.code] ++ textField 100 (encode linkpath) ++
        textField 6 (encode (codeUnits "ustar")) ++ textField 2 (encode (codeUnits "00")) ++
        List.replicate 80 0).length = 345 := by
      rw [List.length_append, List.length_append, List.length_append, List.length_append, hbehind, hlinkname,
        length_textField (by rw [encode_ustar]; decide), length_textField (by rw [encode_version]; decide), List.length_replicate]
    have hnone : textField 155 (encode []) = List.replicate 155 0 := List.nil_append _
    have hroom : List.replicate 247 (0 : UInt8) = List.replicate 80 0 ++ textField 155 (encode []) ++ List.replicate 12 0 := by
      rw [hnone, List.replicate_append_replicate, List.replicate_append_replicate]
    refine field_at ?_ hbefore (length_textField (Nat.zero_le _))
    exact ⟨_, by rw [← hblock, trailing, hroom]; simp only [List.append_assoc]; rfl⟩
  have hustar : decodeUtf8 (encode (codeUnits "ustar")) = .ok (codeUnits "ustar") := decodeUtf8_encode ⟨"ustar", rfl⟩ (by decide)
  have hempty : decodeUtf8 (encode []) = .ok [] := decodeUtf8_encode ⟨"", rfl⟩ (by decide)
  have hmagic : headerText block 257 6 = .ok (codeUnits "ustar") :=
    headerText_textField hmagicField (by rw [encode_ustar]; decide) (by rw [encode_ustar]; decide) hustar
  have hbefore : headerText block 345 155 = .ok [] := headerText_textField hprefixField (Nat.zero_le _) (by decide) hempty
  have hpathText := headerText_textField hpathField hpath.short hpath.noNul hpath.decodes
  have hlinkText := headerText_textField hlinkField hlink.short hlink.noNul hlink.decodes
  have hmodeNumber := headerOctal_octalField hmodeField (by decide) hmode (by unfold maxSafeInteger; omega)
  have hsizeNumber := headerOctal_octalField hsizeField (by decide) hsize (by unfold maxSafeInteger; omega)
  have htypeByte : byteAt block 156 = .ok type.code := by rw [byteAt, htype]
  rw [hblock, parseHeader, hmagic, hpathText, hbefore, htypeByte, hlinkText, hmodeNumber, hsizeNumber]
  simp only [bind, Except.bind]
  have htrim : Double.trim (codeUnits "ustar") = codeUnits "ustar" := by decide
  rw [htrim, if_neg (by simp)]
  simp only [if_true, if_neg type.code_toNat.1, type.code_toNat.2]
  rfl

theorem header_reads_back :
    ∃ block, tarHeader path mode size type linkpath = .ok block ∧ verifyChecksum block = .ok () ∧
      parseHeader block = .ok ⟨linkRead, pathRead, mode, size, codeUnits type.text⟩ := by
  obtain ⟨check, hcheckEq⟩ : ∃ check, octalField 6 (headerSum path mode size type linkpath) ++ [0x20] = check := ⟨_, rfl⟩
  have hsumlt : headerSum path mode size type linkpath < 8 ^ 6 := headerSum_lt hpath.short hlink.short hmode hsize
  have hcheck : check.length = 8 := by
    rw [← hcheckEq, List.length_append, length_octalField (by decide) hsumlt, List.length_singleton]
  have hleading := length_leading hpath.short hmode hsize
  refine ⟨leading path mode size ++ check ++ trailing type linkpath, ?_, ?_, ?_⟩
  · rw [tarHeader_eq hpath.short hlink.short hmode hsize, hcheckEq]
  · have hstored : headerOctal (leading path mode size ++ check ++ trailing type linkpath) 148 8 =
        .ok (headerSum path mode size type linkpath) := by
      have hfield : field (leading path mode size ++ check ++ trailing type linkpath) 148 8 =
          octalField 6 (headerSum path mode size type linkpath) ++ [0x20] := by
        rw [field_at ⟨_, rfl⟩ hleading hcheck, hcheckEq]
      exact headerOctal_octalField hfield (by decide) hsumlt (by unfold maxSafeInteger; omega)
    rw [verifyChecksum, hstored]
    simp only [bind, Except.bind]
    rw [foldl_addByte hcheck hpath.short hmode hsize, if_neg (by simp)]
  · exact parseHeader_fields hpath hlink hmode hsize hcheck

end

end

/-! ## The codecs invert -/

/-- A record of an empty keyword is refused. -/
theorem empty_keyword_refused (hvalue : IsUnicode value) {payload : SourceBytes} (h : paxRecord [] value = some payload.bytes) :
    parsePaxRecords payload = .error archiveRejected := by
  have hbytes := paxRecord_eq_some h
  have hbody : paxBody [] value = (0x3d :: value) ++ [0x0a] := rfl
  rw [hbody] at hbytes
  have hrecord : IsUnicode (0x3d :: value) := isUnicode_append (a := [0x3d]) ⟨"=", rfl⟩ hvalue
  have hlength : (encode (paxText payload.bytes.length ((0x3d :: value) ++ [0x0a]))).length = payload.bytes.length := by
    rw [← hbytes]
  have hfirst : (0x3d :: value : Units).idxOf? 0x3d = some 0 := by simp [List.idxOf?_cons]
  have hread := readPaxRecord_text hrecord (by simp) hlength payload.length_le []
  rw [List.append_nil, ← hbytes, hfirst] at hread
  have hne : payload.bytes ≠ [] := by
    rw [hbytes, encode_paxText]
    simp
  rw [parsePaxRecords, paxRecordsFrom, if_neg hne]
  split
  · next h =>
    rw [hread] at h
    cases h
    rfl
  · next h =>
    rw [hread] at h
    cases h

/-- The tar metadata codecs invert. A pax record is written in at most three turns and starts
    with its own length; records of distinct keywords read back as their pairs; a header
    passes its checksum and reads back as what it was written from. -/
theorem tar_metadata_inverts :
    (∀ key value, ∃ bytes, paxRecord key value = some bytes ∧
      (∀ rounds, paxRounds (paxBody key value) (rounds + 3) (paxStart (paxBody key value)) = some bytes) ∧
      bytes = (digits bytes.length).map UInt8.ofNat ++ 0x20 :: encode (paxBody key value)) ∧
    (∀ (pairs : List (Units × Units)) (records : List Bytes) (payload : SourceBytes), (pairs.map Prod.fst).Nodup →
      (∀ pair ∈ pairs, Keyword pair.1 ∧ IsUnicode pair.2) → pairs.mapM (fun pair => paxRecord pair.1 pair.2) = some records →
      payload.bytes = records.flatten → parsePaxRecords payload = .ok pairs) ∧
    ∀ (path linkpath : Units) (mode size : Nat) (type : TarType), HeaderName path → HeaderName linkpath → mode < 8 ^ 7 →
    size < 8 ^ 11 →
      ∃ block, tarHeader path mode size type linkpath = .ok block ∧ verifyChecksum block = .ok () ∧
        parseHeader block = .ok ⟨linkpath, path, mode, size, codeUnits type.text⟩ := by
  refine ⟨fun key value => ?_, fun pairs records payload hdistinct hpairs hrecords hpayload => ?_, ?_⟩
  · obtain ⟨length, hlength, hrounds⟩ := paxRounds_eq (paxBody key value)
    refine ⟨_, hrounds 0, hrounds, ?_⟩
    conv_lhs => rw [encode_paxText]
    rw [hlength]
  · rw [parsePaxRecords, hpayload]
    have hsafe := payload.length_le
    rw [hpayload] at hsafe
    exact paxRecordsFrom_records hpairs hrecords hsafe (by simpa using hdistinct)
  · intro path linkpath mode size type hpath hlink hmode hsize
    exact header_reads_back hpath.reads hlink.reads hmode hsize

/-- The two records of an entry with a long path and a size, the payload they fill, and a
    header of a file. -/
theorem a_long_path_reads_back :
    (∃ (records : List Bytes) (payload : SourceBytes), [(codeUnits "path", codeUnits "a/b"),
      (codeUnits "size", codeUnits "7")].mapM
      (fun pair => paxRecord pair.1 pair.2) = some records ∧ payload.bytes = records.flatten ∧
        parsePaxRecords payload = .ok [(codeUnits "path", codeUnits "a/b"), (codeUnits "size", codeUnits "7")]) ∧
    ∃ block, tarHeader (codeUnits "PaxEntry/0") 0o644 7 .file [] = .ok block ∧ verifyChecksum block = .ok () ∧
      parseHeader block = .ok ⟨[], codeUnits "PaxEntry/0", 0o644, 7, codeUnits "0"⟩ := by
  have hkeyword : ∀ key : String, codeUnits key ≠ [] → 0x3d ∉ codeUnits key →
      (∀ u ∈ codeUnits key, Double.isWhiteSpace u = false) →
      Keyword (codeUnits key) := fun key hne heq hspace => ⟨⟨key, rfl⟩, hne, heq, hspace⟩
  have hname : ∀ text : String, (encode (codeUnits text)).length ≤ 100 → 0 ∉ codeUnits text →
      (codeUnits text).head? ≠ some 0xfeff →
      HeaderName (codeUnits text) := fun text hshort hnul hmark => ⟨⟨text, rfl⟩, hshort, hnul, hmark⟩
  refine ⟨?_, tar_metadata_inverts.2.2 _ _ _ _ .file (hname "PaxEntry/0" (by decide) (by decide) (by decide))
    (hname "" (by decide) (by decide) (by decide)) (by decide) (by decide)⟩
  obtain ⟨payload, hpayload⟩ : ∃ payload : SourceBytes,
      payload.bytes = [Urlencoded.utf8 "12 path=a/b\n", Urlencoded.utf8 "10 size=7\n"].flatten := ⟨⟨_, by decide⟩, rfl⟩
  have hrecords : [(codeUnits "path", codeUnits "a/b"), (codeUnits "size", codeUnits "7")].mapM
      (fun pair => paxRecord pair.1 pair.2) =
      some [Urlencoded.utf8 "12 path=a/b\n", Urlencoded.utf8 "10 size=7\n"] := by decide
  refine ⟨_, payload, hrecords, hpayload, tar_metadata_inverts.2.1 _ _ payload (by decide) ?_ hrecords hpayload⟩
  intro pair hpair
  simp only [List.mem_cons, List.not_mem_nil, or_false] at hpair
  rcases hpair with rfl | rfl
  · exact ⟨hkeyword "path" (by decide) (by decide) (by decide), "a/b", rfl⟩
  · exact ⟨hkeyword "size" (by decide) (by decide) (by decide), "7", rfl⟩

/-- What the codecs do not carry: an empty keyword is refused, a byte order mark at the start
    of a path is dropped and a surrogate without its partner is replaced. -/
theorem marks_surrogates_and_empty_keywords_are_lost :
    (∃ payload : SourceBytes, paxRecord [] (codeUnits "v") = some payload.bytes ∧
      parsePaxRecords payload = .error archiveRejected) ∧
    (∃ block, tarHeader [0xfeff, 0x61] 0o644 0 .file [] = .ok block ∧
      parseHeader block = .ok ⟨[], [0x61], 0o644, 0, codeUnits "0"⟩) ∧
    ∃ payload : SourceBytes, paxRecord (codeUnits "path") [0xd800] = some payload.bytes ∧
      parsePaxRecords payload = .ok [(codeUnits "path", [0xfffd])] := by
  have hempty : HeaderName [] := ⟨⟨"", rfl⟩, by decide, by decide, by decide⟩
  refine ⟨?_, ?_, ?_⟩
  · obtain ⟨payload, hpayload⟩ : ∃ payload : SourceBytes, payload.bytes = Urlencoded.utf8 "5 =v\n" := ⟨⟨_, by decide⟩, rfl⟩
    have hrecord : paxRecord [] (codeUnits "v") = some payload.bytes := by
      rw [hpayload]
      decide
    exact ⟨payload, hrecord, empty_keyword_refused ⟨"v", rfl⟩ hrecord⟩
  · obtain ⟨block, hblock, -, hread⟩ : ∃ block, tarHeader [0xfeff, 0x61] 0o644 0 .file [] = .ok block ∧
        verifyChecksum block = .ok () ∧
        parseHeader block = .ok ⟨[], [0x61], 0o644, 0, codeUnits "0"⟩ :=
      header_reads_back (readsName_marked ⟨"a", rfl⟩ (by decide) (by decide)) hempty.reads (by decide) (by decide)
    exact ⟨block, hblock, hread⟩
  · obtain ⟨payload, hpayload⟩ : ∃ payload : SourceBytes, payload.bytes = [Urlencoded.utf8 "12 path=\ufffd\n"].flatten :=
      ⟨⟨_, by decide⟩, rfl⟩
    have hreplaced : [(codeUnits "path", [0xfffd])].mapM (fun pair => paxRecord pair.1 pair.2) =
        some [Urlencoded.utf8 "12 path=\ufffd\n"] := by decide
    have hkeyword : Keyword (codeUnits "path") := ⟨⟨"path", rfl⟩, by decide, by decide, by decide⟩
    have hsafe := payload.length_le
    rw [hpayload] at hsafe
    refine ⟨payload, ?_, ?_⟩
    · rw [hpayload]
      decide
    · rw [parsePaxRecords, hpayload]
      exact paxRecordsFrom_records (by simpa using ⟨hkeyword, "\ufffd", rfl⟩) hreplaced hsafe (by decide)

end Fabrika.Control.Tar
