/-
  Fabrika.App.Multipart — implement/multipart.ts: a `multipart/form-data` body read part by part
  as it streams, and the same body read at once.

  A stream is the list of its chunks; one that fails before its end is left out. `toLowerCase` of
  a text past ASCII is the built-in's table and a parameter, `LowerCase`. A reader's functions
  answer its next state beside their result, for a failed read is one the reader remembers.
-/

import Fabrika.Lib.Search
import Fabrika.Lib.Text
import Fabrika.Lib.Urlencoded

namespace Fabrika.App.Multipart

open Fabrika.Lib
open Fabrika.Lib.Text (trimChars cut splitChars lowerChar)
open Fabrika.Lib.Urlencoded (utf8 decodeUtf8)

abbrev Bytes := List UInt8

structure LowerCase where
  lower : List Char → List Char
  ascii : ∀ text, (∀ c ∈ text, c.toNat < 0x80) → lower text = text.map lowerChar

/-! ## Parameters of a header -/

/-- `splitParameters` from a place in a value, with what is read of the current part. -/
def splitParametersFrom : Bool → List Char → List Char → List (List Char)
  | _, current, [] => [trimChars current]
  | true, current, '\\' :: c :: rest => splitParametersFrom true (current ++ ['\\', c]) rest
  | quoted, current, c :: rest =>
    if c = '"' then splitParametersFrom (!quoted) (current ++ [c]) rest
    else if c = ';' && !quoted then trimChars current :: splitParametersFrom quoted [] rest
    else splitParametersFrom quoted (current ++ [c]) rest

/-- Semicolons inside a quoted string do not split. -/
def splitParameters (value : List Char) : List (List Char) := splitParametersFrom false [] value

example : splitParameters "a; b=\"c;d\"; e".toList = ["a".toList, "b=\"c;d\"".toList, "e".toList] := by decide

/-- The text between the quotes; a last backslash reads the closing quote. -/
def unquoteInner : List Char → Option (List Char)
  | [] => some []
  | ['\\'] => some ['"']
  | '\\' :: c :: rest => (unquoteInner rest).map (c :: ·)
  | c :: rest => if c = '"' then none else (unquoteInner rest).map (c :: ·)

/-- A parameter value: a token as it is, a quoted string without its quotes and escapes. -/
def unquote : List Char → Option (List Char)
  | '"' :: rest => if rest.getLast? = some '"' then unquoteInner rest.dropLast else none
  | value => if value = [] ∨ '"' ∈ value then none else some value

section
variable (unicode : LowerCase)

/-- A parameter's key and value, where it has both. -/
def keyValue (parameter : List Char) : Option (List Char × Option (List Char)) :=
  match cut '=' parameter with
  | none => none
  | some ([], _) => none
  | some (key, value) => some (unicode.lower (trimChars key), unquote (trimChars value))

/-! ## The boundary -/

def isBoundaryChar (c : Char) : Bool := c.isAlphanum || "'()+_,-./:=?".toList.contains c

/-- The boundaries of RFC 2046: 1 to 70 characters of a closed set, the last not a space. -/
def isBoundary (value : List Char) : Bool :=
  value.length ≤ 70 && value.all (fun c => isBoundaryChar c || c = ' ') && value.getLast?.any isBoundaryChar

/-- The boundary of a `multipart/form-data` `Content-Type`. -/
def multipartBoundary (contentType : Option (List Char)) : Option (List Char) :=
  match splitParameters (contentType.getD []) with
  | [] => none
  | type :: parameters =>
    if unicode.lower type ≠ "multipart/form-data".toList then none
    else
      match (parameters.filterMap (keyValue unicode)).find? fun parameter => parameter.1 = "boundary".toList with
      | some (_, some value) => if isBoundary value then some value else none
      | _ => none

/-! ## A part's headers -/

structure PartHeaders where
  name : List Char
  filename : Option (List Char)
  contentType : Option (List Char)
  deriving DecidableEq

/-- `text.split('\r\n')`. -/
def splitLines : List Char → List (List Char)
  | [] => [[]]
  | '\r' :: '\n' :: rest => [] :: splitLines rest
  | c :: rest =>
    match splitLines rest with
    | [] => [[c]]
    | line :: lines => (c :: line) :: lines

/-- `new TextDecoder('utf-8').decode(bytes)`, which takes a byte order mark off. -/
def decodeText (bytes : Bytes) : List Char :=
  match decodeUtf8 bytes.length bytes with
  | '\ufeff' :: rest => rest
  | text => text

structure HeaderLines where
  disposition : Option (List Char)
  contentType : Option (List Char)

def readLine (s : HeaderLines) (line : List Char) : Except String HeaderLines :=
  match cut ':' line with
  | none => throw "a part header is not a name and a value"
  | some ([], _) => throw "a part header is not a name and a value"
  | some (name, value) =>
    let header := unicode.lower (trimChars name)
    let value := trimChars value
    if header = "content-disposition".toList then
      if s.disposition.isSome then throw "a part has two Content-Disposition headers"
        else pure { s with disposition := some value }
    else if header = "content-type".toList then
      let type := unicode.lower (trimChars ((splitChars ';' value).headD []))
      pure { s with contentType := if type = [] then none else some type }
    else pure s

structure Names where
  name : Option (List Char)
  filename : Option (List Char)

def readParameter (s : Names) (parameter : List Char) : Except String Names :=
  match keyValue unicode parameter with
  | none => pure s
  | some (key, value) =>
    if key = "name".toList then
      if value.isNone || s.name.isSome then throw "a part's name is malformed or given twice" else pure { s with name := value }
    else if key = "filename".toList then
      if value.isNone || s.filename.isSome then throw "a part's filename is malformed or given twice"
        else pure { s with filename := value }
    else pure s

def partHeaders (block : Bytes) : Except String PartHeaders := do
  let lines ← (splitLines (decodeText block)).foldlM (readLine unicode) ⟨none, none⟩
  let parameters := splitParameters (lines.disposition.getD [])
  if unicode.lower (parameters.headD []) ≠ "form-data".toList then
    throw "a part is not form-data (Content-Disposition: form-data; name=\"…\")"
  let names ← parameters.tail.foldlM (readParameter unicode) ⟨none, none⟩
  match names.name with
  | none => throw "a part has no name"
  | some [] => throw "a part has no name"
  | some name => return { name := name, filename := names.filename, contentType := lines.contentType }

end

/-! ## The reader -/

def CRLF : Bytes := [0x0d, 0x0a]

def HEADERS_END : Bytes := CRLF ++ CRLF

structure Options where
  boundary : String
  maxHeaderBytes : Nat
  unicode : LowerCase

def Options.delimiter (options : Options) : Bytes := CRLF ++ [0x2d, 0x2d] ++ utf8 options.boundary

/-- What the reader holds: the bytes read and not used, the chunks to come, and where it is. -/
structure Reader where
  buffer : Bytes
  chunks : List Bytes
  started : Bool := false
  /-- A part's body is being read: the next part waits until it ended. -/
  reading : Bool := false
  /-- The closing delimiter was read. -/
  finished : Bool := false
  /-- Reading stopped before the closing delimiter. -/
  cancelled : Bool := false
  failed : Option String := none

/-- The body starts with the first delimiter, without the CRLF that precedes every later one. -/
def multipartParts (body : List Bytes) : Reader := { buffer := CRLF, chunks := body }

namespace Reader

/-- The bytes that are not used yet. -/
def rest (r : Reader) : Bytes := r.buffer ++ r.chunks.flatten

/-- A break of the format; once reading was cancelled, the end it meets is the cancellation's. -/
def fail {α : Type} (r : Reader) (message : String) : Except String α × Reader :=
  if r.cancelled then (.error "the body was not read to its end", r) else (.error message, { r with failed := some message })

/-- Reads until the try answers; `none` where the body ended first. -/
def readUntil {α : Type} (r : Reader) (attempt : Bytes → Option α) : Option α × Reader :=
  let (found, buffer, chunks) := fillUntil attempt r.buffer r.chunks
  (found, { r with buffer := buffer, chunks := chunks })

def skip (r : Reader) (n : Nat) : Reader := { r with buffer := r.buffer.drop n }

/-- At least `size` bytes in the buffer. -/
def want (r : Reader) (size : Nat) : Bool × Reader :=
  let (found, r) := r.readUntil fun buffer => if size ≤ buffer.length then some () else none
  (found.isSome, r)

inductive Marker
  | part
  | end
  deriving DecidableEq

/-- The bytes after a delimiter: `--` closes the body, CRLF starts the next part's headers. -/
def afterDelimiter (r : Reader) : Except String Marker × Reader :=
  match r.want 2 with
  | (false, r) => r.fail "the body ends inside a delimiter"
  | (true, r) =>
    let marker := r.buffer.take 2
    let r := r.skip 2
    if marker = [0x2d, 0x2d] then (.ok .end, r)
    else if marker ≠ CRLF then r.fail "a delimiter is followed by neither CRLF nor --"
    else (.ok .part, r)

inductive HeaderSearch
  | tooLong
  | block (length : Nat)

/-- One look for the end of a part's headers. -/
def findHeaders (options : Options) (buffer : Bytes) : Option HeaderSearch :=
  match indexOfPart HEADERS_END buffer with
  | some length => some (if options.maxHeaderBytes < length then .tooLong else .block length)
  | none => if options.maxHeaderBytes < buffer.length then some .tooLong else none

def headers (r : Reader) (options : Options) : Except String PartHeaders × Reader :=
  match r.readUntil (findHeaders options) with
  | (none, r) => r.fail "the body ends inside a part's headers"
  | (some .tooLong, r) => r.fail ("a part's headers are longer than " ++ toString options.maxHeaderBytes ++ " bytes")
  | (some (.block length), r) =>
    let block := r.buffer.take length
    let r := r.skip (length + HEADERS_END.length)
    match partHeaders options.unicode block with
    | .ok found => (.ok found, r)
    | .error message => r.fail message

inductive BodySearch
  | delimiter (index : Nat)
  | safe (length : Nat)

/-- One look for the end of a part's body: what could be the start of the delimiter is kept. -/
def findDelimiter (options : Options) (buffer : Bytes) : Option BodySearch :=
  match indexOfPart options.delimiter buffer with
  | some index => some (.delimiter index)
  | none =>
    let safe := buffer.length - (options.delimiter.length - 1)
    if 0 < safe then some (.safe safe) else none

/-- What one pull of a part's body does: a chunk, the last bytes and the end, or an error. -/
inductive Pull
  | chunk (bytes : Bytes)
  | close (bytes : Bytes)
  | error (message : String)

def pull (r : Reader) (options : Options) : Pull × Reader :=
  match r.readUntil (findDelimiter options) with
  | (none, r) =>
    match (r.fail "the body ends inside a part" : Except String Unit × Reader) with
    | (.error message, r) => (.error message, r)
    | (.ok _, r) => (.chunk [], r)
  | (some (.delimiter index), r) =>
    (.close (r.buffer.take index), { r.skip (index + options.delimiter.length) with reading := false })
  | (some (.safe length), r) => (.chunk (r.buffer.take length), r.skip length)

/-- What `next` does once the first delimiter was read. -/
def nextPart (r : Reader) (options : Options) : Except String (Option PartHeaders) × Reader :=
  match r.afterDelimiter with
  | (.error message, r) => (.error message, r)
  | (.ok .end, r) => (.ok none, { r with finished := true })
  | (.ok .part, r) =>
    match r.headers options with
    | (.error message, r) => (.error message, r)
    | (.ok found, r) => (.ok (some found), { r with reading := true })

/-- The first delimiter. -/
def start (r : Reader) (options : Options) : Except String Unit × Reader :=
  match { r with started := true }.want options.delimiter.length with
  | (found, r) =>
    if found && indexOfPart options.delimiter r.buffer = some 0 then (.ok (), r.skip options.delimiter.length)
    else r.fail "the body does not start with its boundary"

/-- The next part's headers, or `none` after the closing delimiter. -/
def next (r : Reader) (options : Options) : Except String (Option PartHeaders) × Reader :=
  if r.finished then (.ok none, r)
  else if r.cancelled then (.error "the body was not read to its end", r)
  else
    match r.failed with
    | some message => (.error message, r)
    | none =>
      if r.reading then (.error "the previous part's body was not read to its end", r)
      else if r.started then r.nextPart options
      else
        match r.start options with
        | (.error message, r) => (.error message, r)
        | (.ok (), r) => r.nextPart options

/-- Stops reading the body. -/
def cancel (r : Reader) : Reader := { r with cancelled := !r.finished }

end Reader

/-! ## Reading all parts to their ends -/

structure Part where
  headers : PartHeaders
  body : Bytes
  deriving DecidableEq

/-- How reading ends: after the closing delimiter, or where the body breaks the format, in a part
    whose headers were read or before the next one's were. -/
inductive Ending
  | finished
  | malformed (part : Option Part)
  deriving DecidableEq

structure Reading where
  parts : List Part
  ending : Ending
  deriving DecidableEq

def Reading.after (part : Part) (reading : Reading) : Reading := { reading with parts := part :: reading.parts }

/-- A part's body pulled until it ends: its bytes, and whether its delimiter was met. -/
def drain (options : Options) : Nat → Reader → Option (Bytes × Bool × Reader)
  | 0, _ => none
  | fuel + 1, r =>
    match r.pull options with
    | (.close bytes, r) => some (bytes, true, r)
    | (.error _, r) => some ([], false, r)
    | (.chunk bytes, r) => (drain options fuel r).map fun (more, whole, r) => (bytes ++ more, whole, r)

def readParts (options : Options) : Nat → Reader → Option Reading
  | 0, _ => none
  | fuel + 1, r =>
    match r.next options with
    | (.error _, _) => some ⟨[], .malformed none⟩
    | (.ok none, _) => some ⟨[], .finished⟩
    | (.ok (some headers), r) =>
      match drain options (r.rest.length + 1) r with
      | none => none
      | some (body, false, _) => some ⟨[], .malformed (some ⟨headers, body⟩)⟩
      | some (body, true, r) => (readParts options fuel r).map (Reading.after ⟨headers, body⟩)

/-- The parts of a body that arrives in these chunks, each read to its end. -/
def readAll (options : Options) (body : List Bytes) : Option Reading :=
  let r := multipartParts body
  readParts options (r.rest.length + 1) r

end Fabrika.App.Multipart
