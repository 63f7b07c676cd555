/-
  Fabrika.Lib.Utf8 — `new TextDecoder('utf-8', { fatal: true })`: the text of bytes that are
  UTF-8, nothing for any other bytes. A leading byte order mark is dropped.

  Proved:
  - `decodeFatal_eq_some`: a text is decoded from its own bytes, the mark before them or not.
  - `decodeFatal_utf8` / `decodeFatal_mark`: a text reads back unless it starts with a mark.
  - `infix_of_decodeFatal` / `ascii_of_decodeFatal`: a part of the text is a part of the bytes, and
    the characters below 0x80 are the bytes below 0x80, in order.
-/

import Fabrika.Lib.Urlencoded

namespace Fabrika.Lib.Utf8

open Urlencoded (Bytes utf8)

def mark : Char := '\ufeff'

/-- The text without a leading byte order mark. -/
def dropMark : List Char → List Char
  | [] => []
  | c :: rest => if c = mark then rest else c :: rest

def decodeFatal (bytes : Bytes) : Option String :=
  bytes.toByteArray.utf8Decode?.map fun chars => String.ofList (dropMark chars.toList)

/-! ## Bytes and characters -/

theorem utf8_append (a b : String) : utf8 (a ++ b) = utf8 a ++ utf8 b := by
  simp [utf8]

theorem utf8_ofList (chars : List Char) : utf8 (String.ofList chars) = chars.flatMap String.utf8EncodeChar := by
  rw [utf8, String.toList_ofList]

theorem utf8Decode_encode (chars : List Char) :
    (chars.flatMap String.utf8EncodeChar).toByteArray.utf8Decode? = some chars.toArray := by
  have hencoded : (chars.flatMap String.utf8EncodeChar).toByteArray = chars.utf8Encode := rfl
  rw [hencoded, List.utf8Decode?_utf8Encode]

variable {bytes : Bytes} {text : String}

theorem utf8Decode_eq_some {chars : Array Char} (h : bytes.toByteArray.utf8Decode? = some chars) :
    bytes = chars.toList.flatMap String.utf8EncodeChar := by
  have hsome : bytes.toByteArray.utf8Decode?.isSome = true := by rw [h]; rfl
  have hget : bytes.toByteArray.utf8Decode?.get hsome = chars := by simp [h]
  have hencode := @ByteArray.utf8Encode_get_utf8Decode? bytes.toByteArray hsome
  rw [hget] at hencode
  have hlist := congrArg (fun array => array.data.toList) hencode
  simpa [List.utf8Encode] using hlist.symm

/-! ## What is decoded -/

/-- A text is decoded from its own bytes, and from them after a byte order mark. -/
theorem decodeFatal_eq_some :
    decodeFatal bytes = some text ↔
      (bytes = utf8 text ∧ text.toList.head? ≠ some mark) ∨ bytes = utf8 (String.singleton mark ++ text) := by
  unfold decodeFatal
  constructor
  · intro h
    obtain ⟨chars, hchars, rfl⟩ := Option.map_eq_some_iff.mp h
    have hbytes := utf8Decode_eq_some hchars
    cases hlist : chars.toList with
    | nil =>
      left
      rw [hbytes, hlist]
      exact ⟨rfl, by simp [dropMark]⟩
    | cons c rest =>
      rw [hlist] at hbytes
      by_cases hc : c = mark
      · right
        rw [hbytes, hc, dropMark, if_pos rfl, utf8_append, utf8_ofList]
        simp [utf8]
      · left
        rw [hbytes, dropMark, if_neg hc, utf8_ofList]
        exact ⟨rfl, by simpa using hc⟩
  · rintro (⟨rfl, hmark⟩ | rfl)
    · rw [utf8, utf8Decode_encode, Option.map_some]
      cases hlist : text.toList with
      | nil =>
        have hnil : text = "" := by
          apply String.toList_inj.mp
          rw [hlist]
          rfl
        rw [hnil]
        rfl
      | cons c rest =>
        rw [hlist] at hmark
        have hc : c ≠ mark := by simpa using hmark
        simp only [dropMark]
        rw [if_neg hc, ← hlist, String.ofList_toList]
    · rw [utf8, utf8Decode_encode, Option.map_some]
      simp [dropMark]

theorem decodeFatal_utf8 (h : text.toList.head? ≠ some mark) : decodeFatal (utf8 text) = some text :=
  decodeFatal_eq_some.mpr (.inl ⟨rfl, h⟩)

/-- A text that starts with the mark comes back without it. -/
theorem decodeFatal_mark (text : String) : decodeFatal (utf8 (String.singleton mark ++ text)) = some text :=
  decodeFatal_eq_some.mpr (.inr rfl)

/-- What stands in a text stands in the bytes it was decoded from. -/
theorem infix_of_decodeFatal {part : String} (h : decodeFatal bytes = some text) (hpart : part.toList <:+: text.toList) :
    utf8 part <:+: bytes := by
  obtain ⟨before, after, happend⟩ := hpart
  have hbytes : utf8 text = before.flatMap String.utf8EncodeChar ++ utf8 part ++ after.flatMap String.utf8EncodeChar := by
    simp only [utf8, ← happend, List.flatMap_append]
  rcases decodeFatal_eq_some.mp h with ⟨rfl, -⟩ | rfl
  · exact ⟨_, _, hbytes.symm⟩
  · rw [utf8_append, hbytes]
    exact ⟨utf8 (String.singleton mark) ++ before.flatMap String.utf8EncodeChar, after.flatMap String.utf8EncodeChar, by simp⟩

/-! ## ASCII -/

theorem utf8EncodeChar_ascii {c : Char} (hc : c.toNat < 0x80) : String.utf8EncodeChar c = [UInt8.ofNat c.toNat] := by
  have hvalue : c.val.toNat ≤ 0x7f := Nat.le_of_lt_succ hc
  simp only [String.utf8EncodeChar, if_pos hvalue]
  rfl

theorem utf8_ascii (h : ∀ c ∈ text.toList, c.toNat < 0x80) : utf8 text = text.toList.map fun c => UInt8.ofNat c.toNat := by
  unfold utf8
  revert h
  induction text.toList with
  | nil => exact fun _ => rfl
  | cons c rest ih =>
    intro h
    rw [List.flatMap_cons, utf8EncodeChar_ascii (h c List.mem_cons_self), ih fun d hd => h d (List.mem_cons_of_mem _ hd)]
    rfl

/-- The bytes of an ASCII character, and none of any other. -/
theorem ascii_utf8EncodeChar (c : Char) :
    (String.utf8EncodeChar c).filter (fun b => b.toNat < 0x80) = if c.toNat < 0x80 then [UInt8.ofNat c.toNat] else [] := by
  by_cases hc : c.toNat < 0x80
  · have hone := utf8EncodeChar_ascii hc
    have hbyte : (UInt8.ofNat c.toNat).toNat < 0x80 := by
      rw [UInt8.toNat_ofNat']
      omega
    rw [if_pos hc, hone, List.filter_cons_of_pos (by simpa using hbyte), List.filter_nil]
  · rw [if_neg hc, List.filter_eq_nil_iff]
    intro b hb hlow
    have hlow : b.toNat < 0x80 := by simpa using hlow
    exact Urlencoded.not_mem_utf8EncodeChar hlow (by omega) hb

theorem ascii_utf8 (text : String) :
    (utf8 text).filter (fun b => b.toNat < 0x80) =
      (text.toList.filter fun c => c.toNat < 0x80).map fun c => UInt8.ofNat c.toNat := by
  unfold utf8
  induction text.toList with
  | nil => rfl
  | cons c rest ih =>
    rw [List.flatMap_cons, List.filter_append, ih, ascii_utf8EncodeChar]
    by_cases hc : c.toNat < 0x80
    · simp [hc]
    · simp [hc]

/-- The characters below 0x80 of a decoded text are the bytes below 0x80 it was decoded from. -/
theorem ascii_of_decodeFatal (h : decodeFatal bytes = some text) :
    bytes.filter (fun b => b.toNat < 0x80) = (text.toList.filter fun c => c.toNat < 0x80).map fun c => UInt8.ofNat c.toNat := by
  rcases decodeFatal_eq_some.mp h with ⟨rfl, -⟩ | rfl
  · exact ascii_utf8 text
  · have hmark : ¬mark.toNat < 0x80 := by decide
    rw [ascii_utf8, String.toList_append, String.toList_singleton, List.singleton_append,
      List.filter_cons_of_neg (by simpa using hmark)]

end Fabrika.Lib.Utf8
