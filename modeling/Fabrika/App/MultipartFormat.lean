/-
  Fabrika.App.MultipartFormat — what a form sends, and that it is read back.

  `formatBody` writes parts as RFC 7578 has them: a `Content-Disposition` with the part's name and,
  of a file, its name, both quoted strings, and the part's `Content-Type` where it has one. A body
  that arrives at once reads back as its parts; in every split it does exactly where each header
  block leaves room for its terminator within the bound (`readAll_format`).
-/

import Fabrika.App.MultipartProofs

namespace Fabrika.App.Multipart

open Fabrika.Lib
open Fabrika.Lib.Text (trimChars cut splitChars lowerChar isSpace)
open Fabrika.Lib.Urlencoded (utf8 decodeUtf8)

/-! ## What is sent -/

/-- A quoted string: its quotes and backslashes are escaped. -/
def escapeQuoted (c : Char) : List Char := if c = '"' ∨ c = '\\' then ['\\', c] else [c]

def quoted (text : List Char) : List Char := '"' :: (text.flatMap escapeQuoted ++ ['"'])

/-- `key="value"` -/
def parameterText (key value : List Char) : List Char := key ++ '=' :: quoted value

def dispositionText (headers : PartHeaders) : List Char :=
  "form-data; ".toList ++ parameterText "name".toList headers.name
    ++ match headers.filename with
      | none => []
      | some filename => "; ".toList ++ parameterText "filename".toList filename

def headersText (headers : PartHeaders) : List Char :=
  "Content-Disposition: ".toList ++ dispositionText headers
    ++ match headers.contentType with
      | none => []
      | some contentType => "\r\nContent-Type: ".toList ++ contentType

def utf8Chars (text : List Char) : Bytes := text.flatMap String.utf8EncodeChar

def formatHeaders (headers : PartHeaders) : Bytes := utf8Chars (headersText headers)

/-- The parts, each after its delimiter, the closing delimiter, and what the sender adds past it. -/
def formatRest (options : Options) (epilogue : Bytes) : List Part → Bytes
  | [] => [0x2d, 0x2d] ++ epilogue
  | part :: parts => partBytes options (formatHeaders part.headers) part.body ++ formatRest options epilogue parts

def formatBody (options : Options) (epilogue : Bytes) (parts : List Part) : Bytes :=
  firstDelimiter options ++ formatRest options epilogue parts

/-- A media type as a part carries it: of ASCII, lower-cased and without parameters. -/
def isMediaTypeChar (c : Char) : Bool := 0x21 ≤ c.toNat && c.toNat < 0x7f && c != ';' && lowerChar c == c

/-- A part a form can send: it has a name, no line of its headers breaks off, and its contents do not
    hold the delimiter. -/
structure Sendable (options : Options) (part : Part) : Prop where
  named : part.headers.name ≠ []
  name : '\r' ∉ part.headers.name
  filename : ∀ filename, part.headers.filename = some filename → '\r' ∉ filename
  contentType : ∀ contentType, part.headers.contentType = some contentType → contentType ≠ [] ∧ ∀ c ∈ contentType,
    isMediaTypeChar c = true
  body : ¬options.delimiter <:+: part.body

/-! ## Quoted strings are read back -/

theorem unquoteInner_escape (text : List Char) : unquoteInner (text.flatMap escapeQuoted) = some text := by
  induction text with
  | nil => rfl
  | cons c text ih =>
    rw [List.flatMap_cons]
    by_cases hescape : c = '"' ∨ c = '\\'
    · rw [escapeQuoted, if_pos hescape, List.cons_append, List.cons_append, List.nil_append, unquoteInner, ih]
      rfl
    · obtain ⟨hquote, hslash⟩ := not_or.mp hescape
      rw [escapeQuoted, if_neg hescape, List.cons_append, List.nil_append, unquoteInner, if_neg hquote, ih]
      · rfl
      · exact fun h _ => hslash h
      · exact fun _ _ h _ => hslash h

theorem unquote_quoted (text : List Char) : unquote (quoted text) = some text := by
  rw [quoted, unquote, List.getLast?_concat, if_pos rfl, List.dropLast_concat, unquoteInner_escape]

theorem trim_quoted (text : List Char) : trimChars (quoted text) = quoted text :=
  Text.strip_eq_self (by decide) (by decide) _

theorem splitParametersFrom_quoted (text current rest : List Char) :
    splitParametersFrom true current (text.flatMap escapeQuoted ++ '"' :: rest)
      = splitParametersFrom false (current ++ (text.flatMap escapeQuoted ++ ['"'])) rest := by
  induction text generalizing current with
  | nil =>
    show splitParametersFrom true current ('"' :: rest) = _
    rw [splitParametersFrom, if_pos rfl]
    · rfl
    · exact fun _ _ _ h => absurd h (by decide)
  | cons c text ih =>
    rw [List.flatMap_cons, List.append_assoc]
    by_cases hescape : c = '"' ∨ c = '\\'
    · rw [escapeQuoted, if_pos hescape, List.cons_append, List.cons_append, List.nil_append, splitParametersFrom, ih]
      simp only [List.append_assoc, List.cons_append, List.nil_append]
    · obtain ⟨hquote, hslash⟩ := not_or.mp hescape
      rw [escapeQuoted, if_neg hescape, List.cons_append, List.nil_append, splitParametersFrom, if_neg hquote]
      · simp only [Bool.not_true, Bool.and_false, Bool.false_eq_true, if_false]
        rw [ih]
        simp only [List.append_assoc, List.cons_append, List.nil_append]
      · exact fun _ _ _ h _ => hslash h

variable {text : List Char}

theorem splitParametersFrom_plain (hquote : '"' ∉ text) (hsemicolon : ';' ∉ text) (current rest : List Char) :
    splitParametersFrom false current (text ++ rest) = splitParametersFrom false (current ++ text) rest := by
  induction text generalizing current with
  | nil => rw [List.nil_append, List.append_nil]
  | cons c text ih =>
    obtain ⟨hc, hquote'⟩ := List.ne_and_not_mem_of_not_mem_cons hquote
    obtain ⟨hd, hsemicolon'⟩ := List.ne_and_not_mem_of_not_mem_cons hsemicolon
    rw [List.cons_append, splitParametersFrom, if_neg (Ne.symm hc)]
    · simp only [Ne.symm hd, decide_false, Bool.false_and, Bool.false_eq_true, if_false]
      rw [ih hquote' hsemicolon']
      simp only [List.append_assoc, List.cons_append, List.nil_append]
    · intro _ _ h
      cases h

variable {key : List Char}

/-- A parameter is not split inside its quotes. -/
theorem splitParametersFrom_parameter (hquote : '"' ∉ key) (hsemicolon : ';' ∉ key) (value current rest : List Char) :
    splitParametersFrom false current (parameterText key value ++ rest) =
    splitParametersFrom false (current ++ parameterText key value) rest := by
  have hopen : parameterText key value ++ rest = (key ++ ['=']) ++ '"' :: (value.flatMap escapeQuoted ++ '"' :: rest) := by
    simp only [parameterText, quoted, List.append_assoc, List.cons_append, List.nil_append]
  have hkey : '"' ∉ key ++ ['='] := by
    rw [List.mem_append, List.mem_singleton, not_or]
    exact ⟨hquote, by decide⟩
  have hkey' : ';' ∉ key ++ ['='] := by
    rw [List.mem_append, List.mem_singleton, not_or]
    exact ⟨hsemicolon, by decide⟩
  rw [hopen, splitParametersFrom_plain hkey hkey', splitParametersFrom, if_pos rfl]
  · rw [Bool.not_false, splitParametersFrom_quoted]
    simp only [parameterText, quoted, List.append_assoc, List.cons_append, List.nil_append]
  · intro _ _ h
    cases h

theorem splitParameters_disposition (headers : PartHeaders) :
    splitParameters (dispositionText headers)
      = "form-data".toList :: parameterText "name".toList headers.name
        :: (headers.filename.map (parameterText "filename".toList)).toList := by
  have htrim : ∀ key value : List Char, key.head?.any (!isSpace ·) = true →
      trimChars (' ' :: parameterText key value) = parameterText key value := by
    intro key value hkey
    cases key with
    | nil => cases hkey
    | cons c key =>
      have hspace : isSpace c = false := by simpa using hkey
      rw [Text.trimChars_eq, Text.strip_cons (by decide)]
      have hlast : parameterText (c :: key) value = c :: ((key ++ '=' :: '"' :: value.flatMap escapeQuoted) ++ ['"']) := by
        simp only [parameterText, quoted, List.append_assoc, List.cons_append]
      rw [hlast]
      exact Text.strip_eq_self hspace (by decide) _
  have hname := htrim "name".toList headers.name (by decide)
  have hsplit : ∀ rest, splitParameters ("form-data; ".toList ++ parameterText "name".toList headers.name ++ rest)
      = "form-data".toList :: splitParametersFrom false (' ' :: parameterText "name".toList headers.name) rest := by
    intro rest
    have hcut : "form-data; ".toList ++ parameterText "name".toList headers.name ++ rest
        = "form-data".toList ++ ';' :: ([' '] ++ (parameterText "name".toList headers.name ++ rest)) := by
      simp
    rw [hcut, splitParameters, splitParametersFrom_plain (by decide) (by decide), splitParametersFrom, if_neg (by decide)]
    · rw [splitParametersFrom_plain (by decide) (by decide), splitParametersFrom_parameter (by decide) (by decide)]
      rfl
    · intro _ _ h
      cases h
  unfold dispositionText
  rw [hsplit]
  cases headers.filename with
  | none => rw [splitParametersFrom, hname]; rfl
  | some filename =>
    have hrest : "; ".toList ++ parameterText "filename".toList filename = ';' ::
        ([' '] ++ (parameterText "filename".toList filename ++ [])) := by
      simp
    dsimp only
    rw [hrest, splitParametersFrom, if_neg (by decide)]
    · rw [splitParametersFrom_plain (by decide) (by decide), splitParametersFrom_parameter (by decide) (by decide)]
      simp only [decide_true, Bool.not_false, Bool.and_self, if_true, hname]
      rw [splitParametersFrom, List.nil_append, List.singleton_append, htrim "filename".toList filename (by decide)]
      rfl
    · intro _ _ h
      cases h

section
variable (unicode : LowerCase)

theorem keyValue_parameter (hkey : key ≠ []) (hequals : '=' ∉ key) (htrim : trimChars key = key)
    (hlower : unicode.lower key = key) (value : List Char) :
    keyValue unicode (parameterText key value) = some (key, some value) := by
  unfold keyValue
  rw [parameterText, Text.cut_append hequals]
  match key, hkey with
  | c :: key, _ =>
    dsimp only
    rw [htrim, hlower, trim_quoted, unquote_quoted]

/-! ## The headers are read back -/

theorem splitLines_line {line : List Char} (h : '\r' ∉ line) (rest : List Char) :
    splitLines (line ++ '\r' :: '\n' :: rest) = line :: splitLines rest := by
  induction line with
  | nil => rw [List.nil_append, splitLines]
  | cons c line ih =>
    obtain ⟨hc, hline⟩ := List.ne_and_not_mem_of_not_mem_cons h
    rw [List.cons_append, splitLines, ih hline]
    exact fun _ h _ => hc h.symm

theorem splitLines_last {line : List Char} (h : '\r' ∉ line) : splitLines line = [line] := by
  induction line with
  | nil => rfl
  | cons c line ih =>
    obtain ⟨hc, hline⟩ := List.ne_and_not_mem_of_not_mem_cons h
    rw [splitLines, ih hline]
    exact fun _ h _ => hc h.symm

theorem not_mem_quoted (h : '\r' ∉ text) : '\r' ∉ quoted text := by
  rw [quoted, List.mem_cons, List.mem_append, List.mem_singleton]
  intro hmem
  obtain hquote | hmem | hquote := hmem
  · exact absurd hquote (by decide)
  · obtain ⟨c, hc, hmem⟩ := List.mem_flatMap.mp hmem
    have hne : c ≠ '\r' := fun heq => h (heq ▸ hc)
    unfold escapeQuoted at hmem
    split at hmem
    · rw [List.mem_cons, List.mem_singleton] at hmem
      obtain hslash | hc := hmem
      · exact absurd hslash (by decide)
      · exact hne hc.symm
    · exact hne (List.mem_singleton.mp hmem).symm
  · exact absurd hquote (by decide)

theorem not_mem_parameter {value : List Char} (hkey : '\r' ∉ key) (hvalue : '\r' ∉ value) : '\r' ∉ parameterText key value := by
  rw [parameterText, List.mem_append, List.mem_cons]
  intro hmem
  obtain hmem | hequals | hmem := hmem
  · exact hkey hmem
  · exact absurd hequals (by decide)
  · exact not_mem_quoted hvalue hmem

section
variable {part : Part}

theorem Sendable.not_mem_disposition (h : Sendable options part) : '\r' ∉ dispositionText part.headers := by
  unfold dispositionText
  rw [List.mem_append, List.mem_append]
  intro hmem
  obtain (hmem | hmem) | hmem := hmem
  · exact absurd hmem (by decide)
  · exact not_mem_parameter (by decide) h.name hmem
  · cases hfilename : part.headers.filename with
    | none =>
      rw [hfilename] at hmem
      cases hmem
    | some filename =>
      rw [hfilename] at hmem
      obtain hmem | hmem := List.mem_append.mp hmem
      · exact absurd hmem (by decide)
      · exact not_mem_parameter (by decide) (h.filename filename hfilename) hmem

theorem not_mem_contentType {contentType : List Char} (h : ∀ c ∈ contentType, isMediaTypeChar c = true) {c : Char}
    (hc : isMediaTypeChar c = false) :
    c ∉ contentType := by
  intro hmem
  rw [h c hmem] at hc
  cases hc

theorem isSpace_of_mediaType {c : Char} (h : isMediaTypeChar c = true) : isSpace c = false := by
  simp only [isMediaTypeChar, Bool.and_eq_true, decide_eq_true_eq] at h
  unfold isSpace
  simp
  omega

end

section
variable (unicode : LowerCase)

theorem lower_ascii {lower : List Char} (hascii : ∀ c ∈ text, c.toNat < 0x80) (hlower : text.map lowerChar = lower) :
    unicode.lower text = lower := by
  rw [unicode.ascii _ hascii, hlower]

theorem lower_literal {lower : List Char} (hascii : (text.all fun c => c.toNat < 0x80) = true)
    (hlower : text.map lowerChar = lower) : unicode.lower text = lower :=
  lower_ascii unicode (fun c hc => of_decide_eq_true (List.all_eq_true.mp hascii c hc)) hlower

/-- The lines of a part that is sent. -/
def lineTexts (headers : PartHeaders) : List (List Char) :=
  ("Content-Disposition: ".toList ++ dispositionText headers) :: (headers.contentType.map ("Content-Type: ".toList ++ ·)).toList

theorem readLine_disposition (htrim : trimChars (' ' :: text) = text) :
    readLine unicode ⟨none, none⟩ ("Content-Disposition: ".toList ++ text) = .ok ⟨some text, none⟩ := by
  have hcut : cut ':' ("Content-Disposition: ".toList ++ text) = some ("Content-Disposition".toList, ' ' :: text) := by
    have happend := Text.cut_append (by decide : ':' ∉ "Content-Disposition".toList) (' ' :: text)
    rw [← happend]
    simp
  have hlower : unicode.lower (trimChars "Content-Disposition".toList) = "content-disposition".toList :=
    lower_literal unicode (by decide) (by decide)
  unfold readLine
  rw [hcut]
  have hname : "Content-Disposition".toList = 'C' :: "ontent-Disposition".toList := by decide
  rw [hname] at hlower ⊢
  dsimp only
  rw [hlower, if_pos rfl, htrim]
  rfl

theorem readLine_contentType (s : HeaderLines) {contentType : List Char} (hne : contentType ≠ [])
    (h : ∀ c ∈ contentType, isMediaTypeChar c = true) :
    readLine unicode s ("Content-Type: ".toList ++ contentType) = .ok { s with contentType := some contentType } := by
  have hcut : cut ':' ("Content-Type: ".toList ++ contentType) = some ("Content-Type".toList, ' ' :: contentType) := by
    have happend := Text.cut_append (by decide : ':' ∉ "Content-Type".toList) (' ' :: contentType)
    rw [← happend]
    simp
  have hlower : unicode.lower (trimChars "Content-Type".toList) = "content-type".toList :=
    lower_literal unicode (by decide) (by decide)
  have htrim : trimChars contentType = contentType :=
    Text.strip_eq_self_of_forall fun c hc => isSpace_of_mediaType (h c hc)
  have hvalue : trimChars (' ' :: contentType) = contentType := by
    rw [Text.trimChars_eq, Text.strip_cons (by decide)]
    exact htrim
  have htype : unicode.lower contentType = contentType := by
    refine lower_ascii unicode (fun c hc => ?_) ?_
    · have hc := h c hc
      simp only [isMediaTypeChar, Bool.and_eq_true, decide_eq_true_eq] at hc
      omega
    · refine Text.map_lower_eq fun c hc => ?_
      have hc := h c hc
      simp only [isMediaTypeChar, Bool.and_eq_true, beq_iff_eq] at hc
      exact hc.2
  unfold readLine
  rw [hcut]
  have hname : "Content-Type".toList = 'C' :: "ontent-Type".toList := by decide
  rw [hname] at hlower ⊢
  dsimp only
  rw [hlower, if_neg (by decide), if_pos rfl, hvalue, Text.splitChars_of_not_mem (not_mem_contentType h (by decide)),
    List.headD_cons, htrim, htype, if_neg hne]
  rfl

/-- A text that begins with a letter and ends with a quoted string is not trimmed, but for the space
    before it. -/
theorem trim_before_quoted {c : Char} (hc : isSpace c = false) (middle value : List Char) :
    trimChars (' ' :: c :: (middle ++ quoted value)) = c :: (middle ++ quoted value) := by
  have hlast : c :: (middle ++ quoted value) = c :: ((middle ++ '"' :: value.flatMap escapeQuoted) ++ ['"']) := by
    simp only [quoted, List.append_assoc, List.cons_append]
  rw [Text.trimChars_eq, Text.strip_cons (by decide), hlast]
  exact Text.strip_eq_self hc (by decide) _

theorem trim_disposition (headers : PartHeaders) : trimChars (' ' :: dispositionText headers) = dispositionText headers := by
  have hfirst : "form-data; ".toList = 'f' :: "orm-data; ".toList := by decide
  unfold dispositionText parameterText
  rw [hfirst]
  generalize "orm-data; ".toList = start
  generalize "name".toList = name
  generalize "filename".toList = key
  cases headers.filename with
  | none =>
    have htext : 'f' :: start ++ (name ++ '=' :: quoted headers.name) ++
        [] = 'f' :: ((start ++ name ++ ['=']) ++ quoted headers.name) := by simp
    dsimp only
    rw [htext]
    exact trim_before_quoted (by decide) _ _
  | some filename =>
    generalize "; ".toList = separator
    have htext : 'f' :: start ++ (name ++ '=' :: quoted headers.name) ++ (separator ++ (key ++ '=' :: quoted filename))
        = 'f' :: ((start ++ name ++ '=' :: quoted headers.name ++ separator ++ key ++ ['=']) ++ quoted filename) := by simp
    dsimp only
    rw [htext]
    exact trim_before_quoted (by decide) _ _

theorem readParameters_disposition (headers : PartHeaders) :
    (splitParameters (dispositionText headers)).tail.foldlM (readParameter unicode) ⟨none, none⟩ =
    .ok ⟨some headers.name, headers.filename⟩ := by
  have hname : keyValue unicode (parameterText "name".toList headers.name) = some ("name".toList, some headers.name) := by
    have hlower : unicode.lower "name".toList = "name".toList := lower_literal unicode (by decide) (by decide)
    exact keyValue_parameter unicode (by decide) (by decide) (by decide) hlower headers.name
  have hread : readParameter unicode ⟨none, none⟩ (parameterText "name".toList headers.name) = .ok ⟨some headers.name, none⟩ := by
    unfold readParameter
    rw [hname]
    rfl
  rw [splitParameters_disposition, List.tail_cons, List.foldlM_cons, hread]
  cases headers.filename with
  | none => rfl
  | some filename =>
    have hkey : keyValue unicode (parameterText "filename".toList filename) = some ("filename".toList, some filename) := by
      have hlower : unicode.lower "filename".toList = "filename".toList := lower_literal unicode (by decide) (by decide)
      exact keyValue_parameter unicode (by decide) (by decide) (by decide) hlower filename
    have hread' : readParameter unicode ⟨some headers.name, none⟩ (parameterText "filename".toList filename)
        = .ok ⟨some headers.name, some filename⟩ := by
      unfold readParameter
      rw [hkey]
      rfl
    show (Option.map _ (some filename)).toList.foldlM (readParameter unicode) _ = _
    rw [Option.map_some, Option.toList_some, List.foldlM_cons, hread']
    rfl

variable {unicode}

theorem decodeText_headers (headers : PartHeaders) : decodeText (formatHeaders headers) = headersText headers := by
  have hfirst : "Content-Disposition: ".toList = 'C' :: "ontent-Disposition: ".toList := by decide
  unfold decodeText formatHeaders utf8Chars
  rw [Urlencoded.decodeUtf8_encode _ _ le_rfl]
  unfold headersText
  rw [hfirst]
  rfl

theorem splitLines_headers (h : Sendable options part) : splitLines (headersText part.headers) = lineTexts part.headers := by
  have hline : '\r' ∉ "Content-Disposition: ".toList ++ dispositionText part.headers := by
    rw [List.mem_append, not_or]
    exact ⟨by decide, h.not_mem_disposition⟩
  unfold headersText lineTexts
  cases hcontentType : part.headers.contentType with
  | none =>
    dsimp only
    rw [List.append_nil, splitLines_last hline]
    rfl
  | some contentType =>
    have hlater : '\r' ∉ "Content-Type: ".toList ++ contentType := by
      rw [List.mem_append, not_or]
      exact ⟨by decide, not_mem_contentType (h.contentType contentType hcontentType).2 (by decide)⟩
    have hbreak : "\r\nContent-Type: ".toList = '\r' :: '\n' :: "Content-Type: ".toList := by decide
    dsimp only
    rw [hbreak, List.cons_append, List.cons_append, splitLines_line hline, splitLines_last hlater]
    rfl

/-- The headers of a part that is sent are the headers that are read. -/
theorem partHeaders_format (h : Sendable options part) : partHeaders unicode (formatHeaders part.headers) = .ok part.headers := by
  have hlines : (lineTexts part.headers).foldlM (readLine unicode) ⟨none, none⟩
      = .ok ⟨some (dispositionText part.headers), part.headers.contentType⟩ := by
    rw [lineTexts, List.foldlM_cons, readLine_disposition unicode (trim_disposition part.headers)]
    cases hcontentType : part.headers.contentType with
    | none => rfl
    | some contentType =>
      obtain ⟨hne, hchars⟩ := h.contentType contentType hcontentType
      show (Option.map _ (some contentType)).toList.foldlM (readLine unicode) _ = _
      rw [Option.map_some, Option.toList_some, List.foldlM_cons, readLine_contentType unicode _ hne hchars]
      rfl
  have hkind : unicode.lower ((splitParameters (dispositionText part.headers)).headD []) = "form-data".toList := by
    have hlower : unicode.lower "form-data".toList = "form-data".toList := lower_literal unicode (by decide) (by decide)
    rw [splitParameters_disposition, List.headD_cons, hlower]
  have hnames := readParameters_disposition unicode part.headers
  unfold partHeaders
  rw [decodeText_headers, splitLines_headers h, hlines]
  simp only [bind, Except.bind, Option.getD_some]
  rw [if_neg (not_not.mpr hkind), hnames]
  have hnamed := h.named
  cases hpart : part.headers with
  | mk name filename contentType =>
    rw [hpart] at hnamed
    match name, hnamed with
    | c :: name, _ => rfl

end

end

/-! ## The blocks and the bodies end where they do -/

theorem not_mem_utf8Chars (h : '\r' ∉ text) : (0x0d : UInt8) ∉ utf8Chars text := by
  intro hmem
  obtain ⟨c, hc, hbyte⟩ := List.mem_flatMap.mp hmem
  refine Urlencoded.not_mem_utf8EncodeChar (by decide) (fun hcode => h ?_) hbyte
  have hreturn : c = '\r' := Char.toNat_inj.mp hcode
  rw [← hreturn]
  exact hc

theorem utf8Chars_append (one other : List Char) : utf8Chars (one ++ other) = utf8Chars one ++ utf8Chars other :=
  List.flatMap_append

/-- The terminator of a block of two lines is the empty line after the second. -/
theorem first_of_lines {one other : Bytes} (hone : (0x0d : UInt8) ∉ one) (hother : (0x0d : UInt8) ∉ other) (hne : other ≠ []) :
    indexOfPart HEADERS_END (one ++ (CRLF ++ other) ++ HEADERS_END) = some (one ++ (CRLF ++ other)).length := by
  match other, hne with
  | b :: other, _ =>
    have hb : ¬(0x0d : UInt8) = b := fun heq => hother (heq ▸ List.mem_cons_self)
    have hhere : ¬HEADERS_END.isPrefixOf (0x0d :: (0x0a :: b :: other ++ HEADERS_END)) = true := by
      simp [HEADERS_END, CRLF, List.isPrefixOf, hb]
    have hlater : (0x0d : UInt8) ∉ 0x0a :: b :: other := by
      rw [List.mem_cons, not_or]
      exact ⟨by decide, hother⟩
    have hsplit : one ++ (CRLF ++ b :: other) ++ HEADERS_END = one ++ (0x0d :: (0x0a :: b :: other ++ HEADERS_END)) := by
      simp [CRLF]
    have hend : indexOfPart HEADERS_END HEADERS_END = some 0 := by decide
    rw [hsplit, HEADERS_END, CRLF, List.cons_append, indexOfPart_append_of_not_mem hone]
    rw [HEADERS_END, CRLF, List.cons_append] at hhere hend
    rw [indexOfPart, if_neg hhere, indexOfPart_append_of_not_mem hlater, hend]
    simp

variable {part : Part} {parts : List Part} {epilogue : Bytes}

theorem first_format (h : Sendable options part) :
    indexOfPart HEADERS_END (formatHeaders part.headers ++ HEADERS_END) = some (formatHeaders part.headers).length := by
  have hline : '\r' ∉ "Content-Disposition: ".toList ++ dispositionText part.headers := by
    rw [List.mem_append, not_or]
    exact ⟨by decide, h.not_mem_disposition⟩
  unfold formatHeaders headersText
  cases hcontentType : part.headers.contentType with
  | none =>
    dsimp only
    rw [List.append_nil]
    have hend : indexOfPart HEADERS_END HEADERS_END = some 0 := by decide
    rw [HEADERS_END, CRLF, List.cons_append] at hend ⊢
    rw [indexOfPart_append_of_not_mem (not_mem_utf8Chars hline), hend]
    rfl
  | some contentType =>
    have hlater : '\r' ∉ "Content-Type: ".toList ++ contentType := by
      rw [List.mem_append, not_or]
      exact ⟨by decide, not_mem_contentType (h.contentType contentType hcontentType).2 (by decide)⟩
    have hbreak : utf8Chars "\r\nContent-Type: ".toList = CRLF ++ utf8Chars "Content-Type: ".toList := by decide
    have hne : utf8Chars ("Content-Type: ".toList ++ contentType) ≠ [] := by
      rw [utf8Chars_append]
      exact List.append_ne_nil_of_left_ne_nil (by decide) _
    dsimp only
    rw [utf8Chars_append, utf8Chars_append "\r\nContent-Type: ".toList, hbreak, List.append_assoc CRLF,
      ← utf8Chars_append "Content-Type: ".toList]
    exact first_of_lines (not_mem_utf8Chars hline) (not_mem_utf8Chars hlater) hne

theorem block_format (h : Sendable options part) (hshort : (formatHeaders part.headers).length ≤ options.maxHeaderBytes) :
    Block options (formatHeaders part.headers) part.headers where
  first := first_format h
  short := hshort
  reads := partHeaders_format h

theorem ends_format (hboundary : isBoundary options.boundary.toList = true) (h : Sendable options part) :
    Ends options part.body := by
  have hdelimiter : options.delimiter = 0x0d :: (0x0a :: firstDelimiter options) := delimiter_eq options
  have hreturn : '\r' ∉ options.boundary.toList := by
    intro hmem
    simp only [isBoundary, Bool.and_eq_true, List.all_eq_true] at hboundary
    exact absurd (hboundary.1.2 _ hmem) (by decide)
  have hfirst : (0x0d : UInt8) ∉ (0x0a : UInt8) :: firstDelimiter options := by
    rw [firstDelimiter, ← List.cons_append, List.mem_append, not_or]
    exact ⟨by decide, not_mem_utf8Chars hreturn⟩
  have hbody := h.body
  unfold Ends
  rw [hdelimiter] at hbody ⊢
  exact indexOfPart_concat hfirst hbody

/-! ## The parts are read back -/

section
variable (hboundary : isBoundary options.boundary.toList = true) (hparts : ∀ part ∈ parts, Sendable options part)
  (hshort : ∀ part ∈ parts, (formatHeaders part.headers).length ≤ options.maxHeaderBytes)
include hboundary hparts hshort

theorem readWhole_format {fuel : Nat} (hfuel : (formatRest options epilogue parts).length < fuel) :
    readWhole options fuel (formatRest options epilogue parts) = some ⟨parts, .finished⟩ := by
  induction parts generalizing fuel with
  | nil =>
    cases fuel with
    | zero => exact absurd hfuel (Nat.not_lt_zero _)
    | succ fuel => rfl
  | cons part parts ih =>
    have hpart := hparts part List.mem_cons_self
    have hblock := block_format hpart (hshort part List.mem_cons_self)
    have hends := ends_format hboundary hpart
    have hbytes : formatRest options epilogue (part :: parts)
        = CRLF ++ (formatHeaders part.headers ++ HEADERS_END ++
          (part.body ++ options.delimiter ++ formatRest options epilogue parts)) := by
      simp only [formatRest, partBytes, List.append_assoc]
    have hlater := @ih (fun other hother => hparts other (List.mem_cons_of_mem _ hother))
      (fun other hother => hshort other (List.mem_cons_of_mem _ hother))
    cases fuel with
    | zero => exact absurd hfuel (Nat.not_lt_zero _)
    | succ fuel =>
      have hshorter : (formatRest options epilogue parts).length < fuel := by
        have hfour := Reader.delimiter_length options
        rw [hbytes] at hfuel
        simp only [List.length_append] at hfuel
        omega
      have hindex : indexOfPart options.delimiter (part.body ++ options.delimiter ++ formatRest options epilogue parts) =
          some part.body.length :=
        indexOfPart_append hends _
      have htake : (part.body ++ options.delimiter ++ formatRest options epilogue parts).take part.body.length = part.body := by
        rw [List.append_assoc, List.take_left]
      have hdrop : (part.body ++ options.delimiter ++ formatRest options epilogue parts).drop
          (part.body.length + options.delimiter.length)
          = formatRest options epilogue parts := by
        rw [← List.length_append, List.drop_left]
      rw [readWhole, nextWhole_eq_some.mpr ⟨_, hbytes, hblock⟩]
      dsimp only
      rw [hindex]
      dsimp only
      rw [htake, hdrop, hlater hshorter]
      rfl

/-- Reading what is sent only comes to where a part of it stands. -/
theorem reaches_format {rest later : Bytes} (hreaches : Reaches options rest later)
    (hrest : rest = formatRest options epilogue parts) :
    ∃ after, later = formatRest options epilogue after ∧ after ⊆ parts := by
  induction hreaches generalizing parts with
  | here rest => exact ⟨parts, hrest, fun _ h => h⟩
  | @later block body rest target headers hblock hbody _ ih =>
    match parts with
    | [] => exact absurd (congrArg List.head? hrest) (by simp [formatRest, partBytes, CRLF])
    | part :: parts =>
      have hpart := hparts part List.mem_cons_self
      have hbytes : block ++ HEADERS_END ++ (body ++ options.delimiter ++ rest)
          = formatHeaders part.headers ++ HEADERS_END ++ (part.body ++ options.delimiter ++
            formatRest options epilogue parts) := by
        simpa only [formatRest, partBytes, List.append_assoc, List.append_cancel_left_eq] using hrest
      obtain ⟨-, hafter⟩ := first_inj hbytes hblock.first (first_format hpart)
      obtain ⟨-, hlater⟩ := first_inj hafter hbody (ends_format hboundary hpart)
      obtain ⟨after, htarget, hsub⟩ := ih (fun other hother => hparts other (List.mem_cons_of_mem _ hother))
        (fun other hother => hshort other (List.mem_cons_of_mem _ hother)) hlater
      exact ⟨after, htarget, fun other hother => List.mem_cons_of_mem _ (hsub hother)⟩

theorem format_reaches {before after : List Part} (hsplit : parts = before ++ after) :
    Reaches options (formatRest options epilogue parts) (formatRest options epilogue after) := by
  induction before generalizing parts with
  | nil =>
    rw [hsplit]
    exact .here _
  | cons part before ih =>
    subst hsplit
    have hpart := hparts part List.mem_cons_self
    exact .later (block_format hpart (hshort part List.mem_cons_self)) (ends_format hboundary hpart)
      (ih (fun other hother => hparts other (List.mem_cons_of_mem _ hother))
        (fun other hother => hshort other (List.mem_cons_of_mem _ hother)) rfl)

/-- The headers of a body that is sent are short exactly where each part's are. -/
theorem shortHeaders_format :
    ShortHeaders options (formatBody options epilogue parts)
      ↔ ∀ part ∈ parts, (formatHeaders part.headers).length + 3 ≤ options.maxHeaderBytes := by
  constructor
  · intro hclear part hmem
    obtain ⟨before, after, hsplit⟩ := List.append_of_mem hmem
    have hreaches : Reaches options (formatRest options epilogue parts) (formatRest options epilogue (part :: after)) :=
      format_reaches hboundary hparts hshort hsplit
    refine hclear _ _ rfl hreaches _ ?_ (formatHeaders part.headers) part.headers
      (part.body ++ options.delimiter ++ formatRest options epilogue after) rfl
        (block_format (hparts part hmem) (hshort part hmem))
    simp only [formatRest, partBytes, List.append_assoc]
  · intro hroom rest later hbody hreaches more hmore block headers after hbytes hblock
    obtain ⟨following, rfl, hsub⟩ := reaches_format hboundary hparts hshort hreaches (List.append_cancel_left hbody).symm
    cases following with
    | nil => exact absurd (congrArg List.head? hmore) (by simp [formatRest, CRLF])
    | cons part following =>
      have hmem := hsub List.mem_cons_self
      have hsame : formatHeaders part.headers ++ HEADERS_END ++
          (part.body ++ options.delimiter ++ formatRest options epilogue following)
          = block ++ HEADERS_END ++ after := by
        rw [← hbytes]
        simpa only [formatRest, partBytes, List.append_assoc, List.append_cancel_left_eq] using hmore
      obtain ⟨heq, -⟩ := first_inj hsame (first_format (hparts part hmem)) hblock.first
      rw [← heq]
      exact hroom part hmem

/-- A body that arrives at once reads back as its parts; one that arrives in chunks does in every
    split of it exactly where each block of headers leaves room for its terminator. -/
theorem readAll_format :
    readAll options [formatBody options epilogue parts] = some ⟨parts, .finished⟩
      ∧ ((∀ chunks : List Bytes, chunks.flatten = formatBody options epilogue parts →
        readAll options chunks = some ⟨parts, .finished⟩)
        ↔ ∀ part ∈ parts, (formatHeaders part.headers).length + 3 ≤ options.maxHeaderBytes) := by
  have hone : readAll options [formatBody options epilogue parts] = some ⟨parts, .finished⟩ := by
    rw [formatBody, readAll_one]
    refine readWhole_format hboundary hparts hshort ?_
    simp only [List.length_append]
    omega
  refine ⟨hone, ?_⟩
  rw [← shortHeaders_format hboundary hparts hshort, ← readAll_split_iff, hone]

end

/-- A body is read alike in every split of it exactly where its headers are short; each part that is
    read is what stands between its headers and the next delimiter, however the body arrives; and what
    a form sends reads back, in every split exactly where each part's headers are short. -/
theorem read_alike_iff_headers_short (options : Options) :
    (∀ body : Bytes,
        (∀ chunks : List Bytes, chunks.flatten = body → readAll options chunks = readAll options [body]) ↔
        ShortHeaders options body)
      ∧ (∀ chunks : List Bytes, ∃ reading, readAll options chunks = some reading
          ∧ (reading = ⟨[], .malformed none⟩ ∨ ∃ rest, chunks.flatten = firstDelimiter options ++ rest ∧
            Reader.Laid options rest reading))
      ∧ ∀ (epilogue : Bytes) (parts : List Part), isBoundary options.boundary.toList = true →
      (∀ part ∈ parts, Sendable options part) →
          (∀ part ∈ parts, (formatHeaders part.headers).length ≤ options.maxHeaderBytes) →
          readAll options [formatBody options epilogue parts] = some ⟨parts, .finished⟩
            ∧ ((∀ chunks : List Bytes, chunks.flatten = formatBody options epilogue parts →
              readAll options chunks = some ⟨parts, .finished⟩)
              ↔ ∀ part ∈ parts, (formatHeaders part.headers).length + 3 ≤ options.maxHeaderBytes) :=
  ⟨readAll_split_iff options, readAll_laid options, fun _ _ hboundary hparts hshort => readAll_format hboundary hparts hshort⟩

def fileForm : Options := { boundary := "x", maxHeaderBytes := 90, unicode := ⟨(·.map lowerChar), fun _ _ => rfl⟩ }

def aFile : Part := ⟨⟨"a".toList, some "n.txt".toList, some "text/plain".toList⟩, utf8Chars "hi".toList⟩

/-- A file whose 84 bytes of headers leave room for their terminator reads back though it is cut there. -/
theorem a_file_reads_back :
    (formatHeaders aFile.headers).length = 84 ∧
      readAll fileForm [(formatBody fileForm [] [aFile]).take 90, (formatBody fileForm [] [aFile]).drop 90] =
      some ⟨[aFile], .finished⟩ := by
  have hsendable : Sendable fileForm aFile := by
    refine ⟨by decide, by decide, ?_, ?_, by decide⟩
    · intro filename h
      obtain rfl := Option.some.inj h
      decide
    · intro contentType h
      obtain rfl := Option.some.inj h
      exact ⟨by decide, List.all_eq_true.mp (by decide)⟩
  have hreads := (read_alike_iff_headers_short fileForm).2.2 [] [aFile] (by decide)
    (fun part hpart => List.mem_singleton.mp hpart ▸ hsendable) (by decide)
  exact ⟨by decide, hreads.2.mpr (by decide) _ (by simp)⟩

/-- A form with one field whose headers are exactly as long as the bound, cut after the terminator's
    first byte: it is malformed so, and read when it arrives at once. -/
theorem a_cut_terminator_counts_against_the_bound :
    let unicode : LowerCase := ⟨(·.map lowerChar), fun _ _ => rfl⟩
    let options : Options := { boundary := "x", maxHeaderBytes := 40, unicode := unicode }
    let field : Bytes := utf8Chars "Content-Disposition: form-data; name=\"a\"".toList
    let chunk : Bytes := utf8Chars "--x\r\n".toList ++ field ++ [0x0d]
    let later : Bytes := utf8Chars "\n\r\nhi\r\n--x--\r\n".toList
    field.length = 40
      ∧ readAll options [chunk ++ later] = some ⟨[⟨⟨"a".toList, none, none⟩, utf8Chars "hi".toList⟩], .finished⟩
      ∧ readAll options [chunk, later] = some ⟨[], .malformed none⟩ := by
  decide

end Fabrika.App.Multipart
