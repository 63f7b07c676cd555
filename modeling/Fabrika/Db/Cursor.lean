/-
  Fabrika.Db.Cursor — the cursor of a list page (orm.ts `encodeCursor`, `decodeCursor`): the
  texts of the last row's order columns as a JSON array, in base64url.

  A cursor is read strictly: a JSON array of strings and nulls, one for each order column;
  every other text is refused.

  Proved: a page's cursor reads back as its texts (`decodeCursor_encodeCursor`).
-/

import Fabrika.Lib.Base64
import Fabrika.Lib.JsonParse
import Fabrika.Lib.Urlencoded
import Fabrika.Lib.Utf16

namespace Fabrika.Db.Cursor

open Fabrika.Lib Fabrika.Lib.Json

/-- An order column's value as the database prints it. -/
abbrev CursorValue := Option Units

/-! ## Writing -/

def itemText : CursorValue → Units
  | none => codeUnits "null"
  | some text => Json.quote text

/-- `JSON.stringify(values)`. -/
def jsonText (values : List CursorValue) : Units := 0x5b :: ([0x2c].intercalate (values.map itemText) ++ [0x5d])

def encodeCursor (values : List CursorValue) : List Char := Base64.encodeUrl (Urlencoded.utf8 (usvString (jsonText values)))

/-! ## Reading -/

def readItem : Units → Option (CursorValue × Units)
  | [] => none
  | u :: rest =>
    if u = 0x22 then (readString rest.length rest).map fun found => (some found.1, found.2)
    else if (u :: rest).take 4 = codeUnits "null" then some (none, (u :: rest).drop 4)
    else none

/-- The items from the first on, and what follows the closing bracket. -/
def readItems : Nat → Units → Option (List CursorValue × Units)
  | 0, _ => none
  | fuel + 1, text =>
    (readItem (skip text)).bind fun found =>
      match skip found.2 with
      | [] => none
      | u :: more =>
        if u = 0x2c then (readItems fuel more).map fun rest => (found.1 :: rest.1, rest.2)
        else if u = 0x5d then some ([found.1], more)
        else none

def ended (found : List CursorValue × Units) : Option (List CursorValue) := if skip found.2 = [] then some found.1 else none

/-- `JSON.parse` of an array of strings and nulls. -/
def readArray (text : Units) : Option (List CursorValue) :=
  match skip text with
  | [] => none
  | u :: rest =>
    if u = 0x5b then
      match skip rest with
      | [] => none
      | v :: more => if v = 0x5d then ended ([], more) else (readItems rest.length rest).bind ended
    else none

/-- The cursor `after` names: one value for each of `columns` order columns; nothing where it
    is refused. -/
def decodeCursor (after : List Char) (columns : Nat) : Option (List CursorValue) :=
  if after = [] then none
  else
    let bytes := Base64.decodeUrl after
    let text := codeUnits (String.ofList (Urlencoded.decodeUtf8 bytes.length bytes))
    (readArray text).filter fun values => values.length = columns

/-! ## A cursor reads back -/

/-- Texts as the database prints them: each of code units. -/
def Printed (value : CursorValue) : Prop := ∀ text, value = some text → ∀ u ∈ text, u < 0x10000

variable {values : List CursorValue}

theorem readItem_itemText {value : CursorValue} (h : Printed value) (rest : Units) :
    readItem (itemText value ++ rest) = some (value, rest) := by
  cases value with
  | none =>
    show readItem (0x6e :: 0x75 :: 0x6c :: 0x6c :: rest) = _
    simp [readItem, codeUnits]
  | some text =>
    have hquote : itemText (some text) ++ rest = 0x22 :: (Json.quoteUnits text ++ 0x22 :: rest) := by
      simp [itemText, Json.quote]
    have hfuel : text.length < (Json.quoteUnits text ++ 0x22 :: rest).length := by
      have := length_quoteUnits text
      rw [List.length_append, List.length_cons]
      omega
    rw [hquote, readItem, if_pos rfl, readString_quoteUnits _ _ (h text rfl) _ hfuel]
    rfl

theorem skip_itemText (value : CursorValue) (rest : Units) : skip (itemText value ++ rest) = itemText value ++ rest := by
  cases value with
  | none => exact skip_cons rfl _
  | some text => exact skip_cons rfl _

theorem itemsText_cons (value next : CursorValue) (values : List CursorValue) :
    [0x2c].intercalate ((value :: next :: values).map itemText) =
      itemText value ++ 0x2c :: [0x2c].intercalate ((next :: values).map itemText) := by
  simp [List.intercalate]

theorem itemsText_singleton (value : CursorValue) : [0x2c].intercalate ([value].map itemText) = itemText value := by
  simp [List.intercalate]

theorem readItems_intercalate {value : CursorValue} (h : ∀ other ∈ value :: values, Printed other) {fuel : Nat}
    (hfuel : values.length < fuel) (rest : Units) :
    readItems fuel ([0x2c].intercalate ((value :: values).map itemText) ++ 0x5d :: rest) = some (value :: values, rest) := by
  induction fuel generalizing value values with
  | zero => omega
  | succ fuel ih =>
    have hvalue := h value List.mem_cons_self
    cases values with
    | nil =>
      rw [itemsText_singleton, readItems, skip_itemText, readItem_itemText hvalue, Option.bind_some, skip_cons rfl]
      rfl
    | cons next values =>
      rw [itemsText_cons, List.append_assoc, List.cons_append, readItems, skip_itemText, readItem_itemText hvalue,
        Option.bind_some, skip_cons rfl]
      dsimp only
      rw [if_pos rfl, ih (fun other hother => h other (List.mem_cons_of_mem _ hother)) (by simpa using hfuel)]
      rfl

theorem length_intercalate (value : CursorValue) (values : List CursorValue) :
    values.length ≤ ([0x2c].intercalate ((value :: values).map itemText)).length := by
  induction values generalizing value with
  | nil => exact Nat.zero_le _
  | cons next values ih =>
    have := ih next
    rw [itemsText_cons, List.length_append, List.length_cons, List.length_cons]
    omega

theorem itemText_head (value : CursorValue) : ∃ first more, itemText value = first :: more ∧ isJsonSpace first = false ∧
    first ≠ 0x5d := by
  cases value with
  | none => exact ⟨_, _, rfl, rfl, by decide⟩
  | some text => exact ⟨_, _, rfl, rfl, by decide⟩

theorem readArray_jsonText (h : ∀ value ∈ values, Printed value) : readArray (jsonText values) = some values := by
  rw [readArray, jsonText, skip_cons rfl]
  dsimp only
  rw [if_pos rfl]
  cases values with
  | nil => rfl
  | cons value values =>
    obtain ⟨first, more, hitem, hspace, hclose⟩ := itemText_head value
    have hstart : ∃ rest, [0x2c].intercalate ((value :: values).map itemText) ++ [0x5d] = first :: rest := by
      cases values with
      | nil => exact ⟨_, by rw [itemsText_singleton, hitem, List.cons_append]⟩
      | cons next values => exact ⟨_, by rw [itemsText_cons, hitem, List.cons_append, List.cons_append]⟩
    have hlength := length_intercalate value values
    have hread := readItems_intercalate h
      (show values.length < ([0x2c].intercalate ((value :: values).map itemText) ++ [0x5d]).length by
        rw [List.length_append, List.length_singleton]
        omega) []
    obtain ⟨rest, hrest⟩ := hstart
    rw [hrest] at hread ⊢
    rw [skip_cons hspace]
    dsimp only
    rw [if_neg hclose, hread]
    rfl

theorem isUnicode_jsonText (h : ∀ value ∈ values, Printed value) : IsUnicode (jsonText values) := by
  have hitem : ∀ value ∈ values, IsUnicode (itemText value) := by
    intro value hvalue
    cases value with
    | none => exact ⟨_, rfl⟩
    | some text => exact isUnicode_quote text (h _ hvalue text rfl)
  have hitems : IsUnicode ([0x2c].intercalate (values.map itemText)) := by
    clear h
    induction values with
    | nil => exact ⟨"", rfl⟩
    | cons value values ih =>
      cases values with
      | nil =>
        rw [itemsText_singleton]
        exact hitem value List.mem_cons_self
      | cons next values =>
        have hcomma : IsUnicode [0x2c] := ⟨",", rfl⟩
        rw [itemsText_cons]
        exact isUnicode_append (hitem value List.mem_cons_self)
          (isUnicode_append hcomma (ih fun other hother => hitem other (List.mem_cons_of_mem _ hother)))
  have hopen : IsUnicode [0x5b] := ⟨"[", rfl⟩
  exact isUnicode_append hopen (isUnicode_append hitems ⟨"]", rfl⟩)

theorem decodeCursor_encodeCursor (h : ∀ value ∈ values, Printed value) :
    decodeCursor (encodeCursor values) values.length = some values := by
  have htext : codeUnits (String.ofList (Urlencoded.decodeUtf8 (Urlencoded.utf8 (usvString (jsonText values))).length
      (Urlencoded.utf8 (usvString (jsonText values))))) = jsonText values := by
    rw [Urlencoded.utf8, Urlencoded.decodeUtf8_encode _ _ le_rfl, String.ofList_toList,
      codeUnits_usvString (isUnicode_jsonText h)]
  have hbytes : Base64.decodeUrl (encodeCursor values) = Urlencoded.utf8 (usvString (jsonText values)) :=
    Base64.decodeUrl_encodeUrl _
  have hne : encodeCursor values ≠ [] := by
    intro hnil
    rw [hnil] at hbytes
    rw [← hbytes] at htext
    exact List.cons_ne_nil _ _ htext.symm
  rw [decodeCursor, if_neg hne]
  dsimp only
  rw [hbytes, htext, readArray_jsonText h]
  simp

end Fabrika.Db.Cursor
