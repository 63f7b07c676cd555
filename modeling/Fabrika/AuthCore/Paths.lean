/-
  Fabrika.AuthCore.Paths — canonical-path.ts and path-segment.ts: which raw request paths
  every hop reads the same way, and which segment of a pattern names a parameter.

  A canonical path starts with `/` and has no empty segment but a last one, no dot segment
  (also encoded), no encoded or literal backslash, no encoded slash and no malformed
  percent escape.
-/

import Fabrika.Lib.Text

namespace Fabrika.AuthCore.Paths

open Fabrika.Lib

/-! ## canonical-path.ts -/

/-- `ENCODED_SEPARATOR`: the text holds an encoded slash or backslash, in either case. -/
def hasEncodedSeparator (s : String) : Bool :=
  s.toList.tails.any fun
    | '%' :: '2' :: c :: _ => c == 'f' || c == 'F'
    | '%' :: '5' :: c :: _ => c == 'c' || c == 'C'
    | _ => false

/-- `segment.replace(ENCODED_DOT, '.')`. -/
def decodeDots : List Char → List Char
  | [] => []
  | '%' :: '2' :: 'e' :: rest => '.' :: decodeDots rest
  | '%' :: '2' :: 'E' :: rest => '.' :: decodeDots rest
  | c :: rest => c :: decodeDots rest

def isDotSegment (segment : String) : Bool :=
  let decoded := decodeDots segment.toList
  decoded == ['.'] || decoded == ['.', '.']

def isDecodable (segment : String) : Bool := (Text.decodeURIComponent segment).isSome

/-- `path.slice(1).split('/')`. -/
def segmentsOf (path : String) : List String := Text.split (String.ofList (path.toList.drop 1)) '/'

/-- `segments.every(..)` of `isCanonicalPath`: only the last segment may be empty. -/
def canonicalSegments : List String → Bool
  | [] => true
  | segment :: rest =>
    (segment != "" || rest.isEmpty) && !isDotSegment segment && isDecodable segment && canonicalSegments rest

def isCanonicalPath (pathname : String) : Bool :=
  if pathname = "/" then true
  else if !Text.startsWith pathname "/" || Text.includesChar pathname '\\' || hasEncodedSeparator pathname then false
  else canonicalSegments (segmentsOf pathname)

example : isCanonicalPath "/a/b/" = true ∧ isCanonicalPath "/a//b" = false ∧ isCanonicalPath "/a/%2E." = false := by
  decide

/-! ## path-segment.ts -/

def isNameStart (c : Char) : Bool := ('A' ≤ c && c ≤ 'Z') || ('a' ≤ c && c ≤ 'z') || c == '_'

def isNameChar (c : Char) : Bool := isNameStart c || ('0' ≤ c && c ≤ '9')

/-- The name of a `:name` segment, `none` for any other. -/
def parameterName (segment : String) : Option String :=
  match segment.toList with
  | ':' :: c :: rest => if isNameStart c && rest.all isNameChar then some (String.ofList (c :: rest)) else none
  | _ => none

end Fabrika.AuthCore.Paths
