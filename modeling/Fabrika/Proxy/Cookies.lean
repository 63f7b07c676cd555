/-
  Fabrika.Proxy.Cookies — the cookies a request keeps on its way to the application
  (`stripFabrikaCookies` of proxy-core/handoff.ts).

  A `Headers` object holds values as the fetch standard lets it: one byte a character, no
  NUL or line break, no HTTP white space at an end. `set` throws on any other value (`none`
  here) after it took that white space off. The stripper trims each part and cuts it at its
  first `=`; `readCookie` cuts first and trims the two halves. Both read the same name
  (`Text.cut_trimChars`), so what one calls a platform cookie the other does too.

  Proved: the stripper never throws; the parts it leaves are the parts there were, trimmed,
  in order, less those whose name has the platform's start (`stripFabrikaCookies_parts`);
  no cookie with that start can be read any more, every other reads as before, and no other
  header changes (`stripFabrikaCookies_frame`).
-/

import Fabrika.Proxy.Authorize
import Mathlib

namespace Fabrika.Proxy

open Fabrika.Lib
open Fabrika.Lib.Text (trim splitChars trimChars toLowerCase)

def fabrikaCookiePrefix : String := "__Host-px_"

/-! ## Header values -/

/-- HTTP white space, which `set` takes off both ends of a value. -/
def isHttpSpace (c : Char) : Bool := c = '\t' || c = '\n' || c = '\r' || c = ' '

/-- A character a header value may hold. -/
def isHeaderChar (c : Char) : Bool := c.toNat ≤ 255 && c.toNat ≠ 0 && c ≠ '\n' && c ≠ '\r'

structure Headers where
  /-- By the lower-case name. -/
  value : String → Option String
  valid : ∀ name v, value name = some v → (∀ c ∈ v.toList, isHeaderChar c = true) ∧ Text.strip isHttpSpace v.toList = v.toList

namespace Headers

def get (headers : Headers) (name : String) : Option String := headers.value (toLowerCase name)

def delete (headers : Headers) (name : String) : Headers where
  value other := if other = toLowerCase name then none else headers.value other
  valid other v h := by
    split at h
    · cases h
    · exact headers.valid other v h

def set (headers : Headers) (name v : String) : Option Headers :=
  let stripped := Text.strip isHttpSpace v.toList
  if hchars : ∀ c ∈ stripped, isHeaderChar c = true then
    some {
      value := fun other => if other = toLowerCase name then some (String.ofList stripped) else headers.value other
      valid := by
        intro other w h
        split at h
        · cases h
          rw [String.toList_ofList]
          exact ⟨hchars, Text.strip_strip (fun _ h => h) v.toList⟩
        · exact headers.valid other w h }
  else none

theorem get_delete (headers : Headers) (name other : String) :
    (headers.delete name).get other = if toLowerCase other = toLowerCase name then none else headers.get other := rfl

theorem set_of_chars (headers : Headers) (name : String) {v : String}
    (hchars : ∀ c ∈ Text.strip isHttpSpace v.toList, isHeaderChar c = true) :
    ∃ after, headers.set name v = some after ∧ ∀ other, after.get other =
      if toLowerCase other = toLowerCase name then some (String.ofList (Text.strip isHttpSpace v.toList))
      else headers.get other := by
  unfold Headers.set
  dsimp only
  rw [dif_pos hchars]
  refine ⟨_, rfl, ?_⟩
  intro other
  rfl

end Headers

/-! ## The stripper -/

/-- Whether `stripFabrikaCookies` keeps a part, which it has trimmed. -/
def keepsPart (part : String) : Bool :=
  let name := match Text.cut '=' part.toList with
    | none => part
    | some (before, _) => String.ofList (trimChars before)
  !Text.startsWith name fabrikaCookiePrefix

def stripFabrikaCookies (headers : Headers) : Option Headers :=
  match headers.get "Cookie" with
  | none => some headers
  | some raw =>
    let kept := ((Text.split raw ';').map trim).filter keepsPart
    if kept.length = 0 then some (headers.delete "Cookie") else headers.set "Cookie" ("; ".intercalate kept)

/-! ## What a header means -/

/-- The parts of a `Cookie` header. -/
def cookieParts (header : Option String) : List String := header.elim [] fun raw => Text.split raw ';'

/-- The name of a part: what stands before its first `=`, or all of it. -/
def cookieName (part : String) : String :=
  match Text.cut '=' part.toList with
  | none => trim part
  | some (before, _) => String.ofList (trimChars before)

theorem trim_trim (s : String) : trim (trim s) = trim s := by
  rw [trim, trim, String.toList_ofList, Text.trimChars_eq, Text.trimChars_eq, Text.strip_strip (fun _ h => h)]

theorem cookieName_eq (part : String) :
    cookieName part =
      String.ofList (((Text.cut '=' part.toList).map (Prod.map trimChars trimChars)).elim (trimChars part.toList)
        Prod.fst) := by
  rw [cookieName]
  cases Text.cut '=' part.toList with
  | none => rfl
  | some halves => rfl

theorem cookieName_trim (part : String) : cookieName (trim part) = cookieName part := by
  have htoList : (trim part).toList = trimChars part.toList := by rw [trim, String.toList_ofList]
  rw [cookieName_eq, cookieName_eq, htoList, Text.cut_trimChars (by decide), Text.trimChars_eq, Text.trimChars_eq,
    Text.strip_strip (fun _ h => h)]

theorem keepsPart_trim (part : String) : keepsPart (trim part) = !Text.startsWith (cookieName part) fabrikaCookiePrefix := by
  rw [← cookieName_trim part, keepsPart, cookieName, trim_trim]

/-! ## Reading a cookie from trimmed parts -/

/-- What `readCookie` does with one part: nothing, or an answer. -/
def readPart (name : String) (part : String) : Option (Option String) :=
  ((Text.cut '=' part.toList).map (Prod.map trimChars trimChars)).bind fun (before, after) =>
    if before = name.toList then some (if String.ofList after = "" then none else some (String.ofList after)) else none

theorem readCookieParts_cons (name part : String) (rest : List String) :
    readCookieParts name (part :: rest) = (readPart name part).getD (readCookieParts name rest) := by
  rw [readCookieParts, readPart]
  cases Text.cut '=' part.toList with
  | none => rfl
  | some halves =>
    obtain ⟨before, after⟩ := halves
    by_cases hname : trimChars before = name.toList
    · simp [hname]
    · simp [hname]

theorem readPart_trim (name part : String) : readPart name (trim part) = readPart name part := by
  rw [readPart, readPart, trim, String.toList_ofList, Text.cut_trimChars (by decide)]

variable {name : String}

theorem readPart_of_ne {part : String} (h : cookieName part ≠ name) : readPart name part = none := by
  rw [readPart]
  rw [cookieName_eq] at h
  cases hcut : Text.cut '=' part.toList with
  | none => rfl
  | some halves =>
    rw [hcut] at h
    have hne : trimChars halves.1 ≠ name.toList := fun heq => h (by simp [heq])
    simp [hne]

theorem readCookieParts_trim (name : String) (parts : List String) :
    readCookieParts name (parts.map trim) = readCookieParts name parts := by
  induction parts with
  | nil => rfl
  | cons part rest ih => rw [List.map_cons, readCookieParts_cons, readCookieParts_cons, readPart_trim, ih]

/-- Parts of another name do not matter to a reader. -/
theorem readCookieParts_filter {keeps : String → Bool} (parts : List String)
    (h : ∀ part ∈ parts, cookieName part = name → keeps part = true) :
    readCookieParts name (parts.filter keeps) = readCookieParts name parts := by
  induction parts with
  | nil => rfl
  | cons part rest ih =>
    have hrest := ih fun other hother => h other (List.mem_cons_of_mem _ hother)
    by_cases hkeeps : keeps part = true
    · rw [List.filter_cons_of_pos hkeeps, readCookieParts_cons, readCookieParts_cons, hrest]
    · have hname : cookieName part ≠ name := fun heq => hkeeps (h part List.mem_cons_self heq)
      rw [List.filter_cons_of_neg hkeeps, readCookieParts_cons, readPart_of_ne hname, hrest]
      rfl

theorem readCookieParts_eq_none (parts : List String) (h : ∀ part ∈ parts, cookieName part ≠ name) :
    readCookieParts name parts = none := by
  induction parts with
  | nil => rfl
  | cons part rest ih =>
    rw [readCookieParts_cons, readPart_of_ne (h part List.mem_cons_self)]
    exact ih fun other hother => h other (List.mem_cons_of_mem _ hother)

/-- An empty header has one empty part, which is no cookie. -/
theorem readCookie_eq (header : Option String) (name : String) :
    readCookie header name = readCookieParts name ((cookieParts header).map trim) := by
  rw [readCookieParts_trim]
  cases header with
  | none => rfl
  | some raw =>
    rw [readCookie, Option.bind_some, cookieParts, Option.elim_some]
    by_cases hempty : raw = ""
    · rw [if_pos hempty, hempty]
      rfl
    · rw [if_neg hempty]

/-! ## Parts, joined and split again -/

theorem splitChars_cons_space {c sep : Char} (hc : Text.isSpace c = true) (hne : c ≠ sep) (cs : List Char) :
    (splitChars sep (c :: cs)).map trimChars = (splitChars sep cs).map trimChars := by
  rw [splitChars, if_neg hne]
  cases hsplit : splitChars sep cs with
  | nil => exact absurd hsplit (Text.splitChars_ne_nil sep cs)
  | cons part parts => simp [Text.trimChars_eq, Text.strip_cons hc]

theorem splitChars_concat_space {c sep : Char} (hc : Text.isSpace c = true) (hne : c ≠ sep) (cs : List Char) :
    (splitChars sep (cs ++ [c])).map trimChars = (splitChars sep cs).map trimChars := by
  have hconcat : ∀ cs : List Char, ∃ front last, splitChars sep cs = front ++ [last] ∧
      splitChars sep (cs ++ [c]) = front ++ [last ++ [c]] := by
    intro cs
    induction cs with
    | nil => exact ⟨[], [], rfl, by simp [splitChars, hne]⟩
    | cons d rest ih =>
      obtain ⟨front, last, hold, hnew⟩ := ih
      by_cases hd : d = sep
      · exact ⟨[] :: front, last, by simp [splitChars, hd, hold], by simp [splitChars, hd, hnew]⟩
      · cases front with
        | nil => exact ⟨[], d :: last, by simp [splitChars, hd, hold], by simp [splitChars, hd, hnew]⟩
        | cons part front =>
          exact ⟨(d :: part) :: front, last, by simp [splitChars, hd, hold], by simp [splitChars, hd, hnew]⟩
  obtain ⟨front, last, hold, hnew⟩ := hconcat cs
  rw [hold, hnew]
  simp [Text.trimChars_eq, Text.strip_concat hc]

/-- White space at the ends of a header is white space at the ends of its parts. -/
theorem split_strip (s : String) :
    (Text.split (String.ofList (Text.strip isHttpSpace s.toList)) ';').map trim = (Text.split s ';').map trim := by
  have hparts : ∀ s : String, (Text.split s ';').map trim =
      ((splitChars ';' s.toList).map trimChars).map String.ofList := by
    intro s
    simp [Text.split, trim]
  obtain ⟨front, back, heq, hfront, hback⟩ := Text.strip_eq_middle isHttpSpace s.toList
  have hspace : ∀ c, isHttpSpace c = true → Text.isSpace c = true ∧ c ≠ ';' := by
    intro c hc
    simp only [isHttpSpace, Bool.or_eq_true, decide_eq_true_eq, or_assoc] at hc
    rcases hc with rfl | rfl | rfl | rfl <;> decide
  have hleft : ∀ cs : List Char, (splitChars ';' (front ++ cs)).map trimChars =
      (splitChars ';' cs).map trimChars := by
    intro cs
    clear heq
    induction front with
    | nil => rfl
    | cons c front ih =>
      obtain ⟨hc, hne⟩ := hspace c (hfront c List.mem_cons_self)
      rw [List.cons_append, splitChars_cons_space hc hne]
      exact ih fun d hd => hfront d (List.mem_cons_of_mem _ hd)
  have hright : ∀ cs : List Char, (splitChars ';' (cs ++ back)).map trimChars =
      (splitChars ';' cs).map trimChars := by
    intro cs
    clear heq
    induction back using List.reverseRecOn with
    | nil => rw [List.append_nil]
    | append_singleton back c ih =>
      obtain ⟨hc, hne⟩ := hspace c (hback c (List.mem_append_right _ List.mem_cons_self))
      rw [← List.append_assoc, splitChars_concat_space hc hne]
      exact ih fun d hd => hback d (List.mem_append_left _ hd)
  rw [hparts, hparts s, String.toList_ofList]
  conv_rhs => rw [heq, hright, hleft]

/-- Trimmed parts without a separator are what is read back of their join. -/
theorem split_intercalate {parts : List String} (hne : parts ≠ [])
    (hparts : ∀ part ∈ parts, ';' ∉ part.toList ∧ trim part = part) :
    (Text.split ("; ".intercalate parts) ';').map trim = parts := by
  induction parts with
  | nil => exact absurd rfl hne
  | cons part rest ih =>
    obtain ⟨hsep, htrim⟩ := hparts part List.mem_cons_self
    have hone : Text.split (String.ofList part.toList) ';' = [part] := by
      rw [String.ofList_toList]
      exact Text.split_join (List.cons_ne_nil part []) (by simpa using hsep)
    by_cases hrest : rest = []
    · subst hrest
      rw [String.ofList_toList] at hone
      rw [String.intercalate_singleton, hone, List.map_singleton, htrim]
    · have hjoined : "; ".intercalate (part :: rest) = String.ofList (part.toList ++
          ';' :: ' ' :: ("; ".intercalate rest).toList) := by
        apply String.toList_inj.mp
        rw [String.toList_ofList, String.toList_intercalate, List.map_cons,
          List.intercalate_cons_of_ne_nil (by simpa using hrest), ← String.toList_intercalate]
        simp
      have hspace := splitChars_cons_space (c := ' ') (by decide) (by decide : ' ' ≠ ';') ("; ".intercalate rest).toList
      have htail : (Text.split (String.ofList (' ' :: ("; ".intercalate rest).toList)) ';').map trim = rest := by
        refine Eq.trans ?_ (ih hrest fun other hother => hparts other (List.mem_cons_of_mem _ hother))
        simpa [Text.split, trim, Function.comp_def] using congrArg (List.map String.ofList) hspace
      rw [hjoined, Text.split_append, List.map_append, hone, htail, List.map_singleton, htrim, List.singleton_append]

/-! ## The results -/

/-- The parts the stripper keeps of a header's. -/
def keptParts (header : Option String) : List String := ((cookieParts header).map trim).filter keepsPart

theorem mem_keptParts {header : Option String} {part : String} (h : part ∈ keptParts header) :
    ';' ∉ part.toList ∧ trim part = part ∧ Text.startsWith (cookieName part) fabrikaCookiePrefix = false := by
  obtain ⟨hmem, hkeeps⟩ := List.mem_filter.mp h
  obtain ⟨original, horiginal, rfl⟩ := List.mem_map.mp hmem
  refine ⟨?_, trim_trim original, ?_⟩
  · cases header with
    | none => cases horiginal
    | some raw =>
      have hsep := Text.not_mem_of_mem_split horiginal
      rw [trim, String.toList_ofList]
      exact fun hin => hsep (Text.mem_of_mem_trimChars hin)
  · rw [keepsPart_trim, Bool.not_eq_true'] at hkeeps
    rw [cookieName_trim, hkeeps]

/-- Everything in the kept parts was in the header, so `set` takes their join. -/
theorem keptParts_chars (headers : Headers) {raw : String} (hraw : headers.get "Cookie" = some raw) :
    ∀ c ∈ Text.strip isHttpSpace ("; ".intercalate (keptParts (some raw))).toList, isHeaderChar c = true := by
  intro c hc
  have hin := Text.mem_of_mem_strip hc
  obtain ⟨hvalid, -⟩ := headers.valid _ raw hraw
  have hpart : ∀ part ∈ keptParts (some raw), ∀ c ∈ part.toList, isHeaderChar c = true := by
    intro part hpart c hc
    obtain ⟨original, horiginal, rfl⟩ := List.mem_map.mp (List.mem_filter.mp hpart).1
    rw [trim, String.toList_ofList] at hc
    exact hvalid c ((Text.infix_of_mem_split horiginal).subset (Text.mem_of_mem_trimChars hc))
  generalize keptParts (some raw) = parts at hin hpart
  rw [String.toList_intercalate] at hin
  induction parts with
  | nil => cases hin
  | cons part rest ih =>
    by_cases hrest : rest = []
    · subst hrest
      rw [List.map_singleton, List.intercalate_singleton] at hin
      exact hpart part List.mem_cons_self c hin
    · rw [List.map_cons, List.intercalate_cons_of_ne_nil (by simpa using hrest), List.mem_append, List.mem_append] at hin
      rcases hin with (hin | hin) | hin
      · exact hpart part List.mem_cons_self c hin
      · have hsep : c = ';' ∨ c = ' ' := by simpa using hin
        rcases hsep with rfl | rfl <;> decide
      · exact ih hin fun other hother => hpart other (List.mem_cons_of_mem _ hother)

/-- The stripper never throws: it answers headers whose `Cookie` has the kept parts and
    whose other values are the same. -/
theorem stripFabrikaCookies_parts (headers : Headers) :
    ∃ after, stripFabrikaCookies headers = some after ∧
      (cookieParts (after.get "Cookie")).map trim = keptParts (headers.get "Cookie") ∧
      ∀ name, toLowerCase name ≠ "cookie" → after.get name = headers.get name := by
  have hlower : toLowerCase "Cookie" = "cookie" := by decide
  rw [stripFabrikaCookies]
  cases hraw : headers.get "Cookie" with
  | none => exact ⟨headers, rfl, by rw [hraw]; rfl, fun _ _ => rfl⟩
  | some raw =>
    by_cases hempty : (keptParts (some raw)).length = 0
    · refine ⟨headers.delete "Cookie", if_pos hempty, ?_, ?_⟩
      · rw [Headers.get_delete, if_pos rfl, List.length_eq_zero_iff.mp hempty]
        rfl
      · intro name hname
        rw [Headers.get_delete, hlower, if_neg hname]
    · obtain ⟨after, hset, hget⟩ := headers.set_of_chars "Cookie" (keptParts_chars headers hraw)
      have hparts : ∀ part ∈ keptParts (some raw), ';' ∉ part.toList ∧ trim part = part := fun part hpart =>
        ⟨(mem_keptParts hpart).1, (mem_keptParts hpart).2.1⟩
      refine ⟨after, (if_neg hempty).trans hset, ?_, ?_⟩
      · rw [hget, if_pos rfl, cookieParts, Option.elim_some, split_strip,
          split_intercalate (fun h => hempty (List.length_eq_zero_iff.mpr h)) hparts]
      · intro name hname
        rw [hget, hlower, if_neg hname]

/-- No platform cookie is left, under any reading, and nothing else is lost: the other
    parts stay in their order and number, other names read as before, and no other header
    changes. -/
theorem stripFabrikaCookies_frame (headers : Headers) :
    ∃ after, stripFabrikaCookies headers = some after ∧
      (∀ part ∈ cookieParts (after.get "Cookie"), Text.startsWith (cookieName part) fabrikaCookiePrefix = false) ∧
      (∀ name, Text.startsWith name fabrikaCookiePrefix = true → readCookie (after.get "Cookie") name = none) ∧
      (∀ name, Text.startsWith name fabrikaCookiePrefix = false →
        readCookie (after.get "Cookie") name = readCookie (headers.get "Cookie") name) ∧
      (cookieParts (after.get "Cookie")).map trim =
        ((cookieParts (headers.get "Cookie")).filter fun part =>
          !Text.startsWith (cookieName part) fabrikaCookiePrefix).map trim ∧
      ∀ name, toLowerCase name ≠ "cookie" → after.get name = headers.get name := by
  obtain ⟨after, hstrip, hparts, hothers⟩ := stripFabrikaCookies_parts headers
  refine ⟨after, hstrip, ?_, ?_, ?_, ?_, hothers⟩
  · intro part hpart
    have hkept : trim part ∈ keptParts (headers.get "Cookie") := hparts ▸ List.mem_map_of_mem hpart
    rw [← cookieName_trim]
    exact (mem_keptParts hkept).2.2
  · intro name hname
    rw [readCookie_eq, hparts]
    apply readCookieParts_eq_none
    rintro part hpart rfl
    rw [(mem_keptParts hpart).2.2] at hname
    cases hname
  · intro name hname
    rw [readCookie_eq, hparts, readCookie_eq, keptParts]
    apply readCookieParts_filter
    intro part hpart heq
    obtain ⟨original, -, rfl⟩ := List.mem_map.mp hpart
    rw [cookieName_trim] at heq
    rw [keepsPart_trim, heq, hname]
    rfl
  · have hkeeps : keepsPart ∘ trim = fun part => !Text.startsWith (cookieName part) fabrikaCookiePrefix := by
      funext part
      rw [Function.comp_apply, keepsPart_trim]
    rw [hparts, keptParts, List.filter_map, hkeeps]

end Fabrika.Proxy
