/-
  Fabrika.App.Verifiers — verifiers.ts of the application, as far as a webhook's `basic` and
  `bearer` schemes go: what it reads of an `Authorization` header.

  A header value is a text of code units, `none` where there is no header. Basic credentials
  are read strictly: one blank, base64 in whole groups with its padding, then UTF-8. A refused
  header is `none` throughout, as it is `null` in the code; `atob` reads every text that
  `decode` gives it.
-/

import Fabrika.Lib.Base64
import Fabrika.Lib.Text
import Fabrika.Lib.Utf8

namespace Fabrika.App.Verifiers

open Fabrika.Lib
open Fabrika.Lib.Urlencoded (Bytes)

/-! ## Bytes of a text -/

inductive Encoding
  | hex
  | base64
  deriving DecidableEq

/-- `[A-Za-z0-9+/]`. -/
def isBase64 (c : Char) : Bool := (Base64.value c).isSome

/-- `(?:[0-9a-fA-F]{2})*`. -/
def isHexPairs : List Char → Bool
  | [] => true
  | [_] => false
  | a :: b :: rest => (Text.hexDigit a).isSome && (Text.hexDigit b).isSome && isHexPairs rest

/-- `Number.parseInt` of each pair of digits. -/
def hexBytes : List Char → Bytes
  | a :: b :: rest => UInt8.ofNat (16 * (Text.hexDigit a).getD 0 + (Text.hexDigit b).getD 0) :: hexBytes rest
  | _ => []

/-- `/^(?:[A-Za-z0-9+/]{4})*(?:[A-Za-z0-9+/]{2}==|[A-Za-z0-9+/]{3}=)?$/`. -/
def isPaddedBase64 : List Char → Bool
  | [] => true
  | a :: b :: c :: d :: rest =>
    if rest = [] ∧ c = '=' ∧ d = '=' then isBase64 a && isBase64 b
    else if rest = [] ∧ d = '=' then isBase64 a && isBase64 b && isBase64 c
    else isBase64 a && isBase64 b && isBase64 c && isBase64 d && isPaddedBase64 rest
  | _ => false

/-- `binary.charCodeAt(index)` of each character, kept as a byte. -/
def charCodes (binary : String) : Bytes := binary.toList.map fun c => UInt8.ofNat c.toNat

/-- Bytes of a hex or base64 text. -/
def decode (text : String) : Encoding → Option Bytes
  | .hex => if text ≠ "" ∧ isHexPairs text.toList then some (hexBytes text.toList) else none
  | .base64 => if !isPaddedBase64 text.toList ∨ text = "" then none else (Base64.atob text).map charCodes

def utf8 (bytes : Bytes) : Option String := Utf8.decodeFatal bytes

/-! ## Credentials -/

/-- What `/^Basic ([A-Za-z0-9+/]+={0,2})$/i` captures. -/
def matchBasic (authorization : String) : Option String :=
  let cs := authorization.toList
  let encoded := cs.drop 6
  let padding := encoded.dropWhile isBase64
  if (cs.take 6).map Text.lowerChar = "basic ".toList ∧ encoded.takeWhile isBase64 ≠ [] ∧ padding.all (· == '=') ∧
    padding.length ≤ 2 then
    some (String.ofList encoded)
  else none

/-- The `user:password` text of Basic credentials. -/
def basicText (authorization : Option String) : Option String := do
  let encoded ← matchBasic (← authorization)
  let credentials ← decode encoded .base64
  utf8 credentials

/-- The password of `Authorization: Basic <base64(user:password)>`. -/
def basicPassword (authorization : Option String) : Option String := do
  let text ← basicText authorization
  let (_, password) ← Text.cut ':' text.toList
  return String.ofList password

/-- `/^Bearer (\S+)$/i`. -/
def bearerToken (authorization : Option String) : Option String := do
  let cs := (← authorization).toList
  let token := cs.drop 7
  if (cs.take 7).map Text.lowerChar = "bearer ".toList ∧ token ≠ [] ∧ token.all (fun c => !Text.isSpace c) then
    some (String.ofList token)
  else none

example : bearerToken (some "bearer s3cret") = some "s3cret" ∧ bearerToken (some "Bearer  s") = none ∧
    matchBasic "Basic dXNlcjpwYXNz" = some "dXNlcjpwYXNz" ∧ matchBasic "Basic  dXNlcg==" = none := by decide

example : decode "dXNlcg==" .base64 = some [0x75, 0x73, 0x65, 0x72] ∧ decode "dXNlcg" .base64 = none ∧
    decode "0aFF" .hex = some [0x0a, 0xff] ∧ decode "0a1" .hex = none := by decide

end Fabrika.App.Verifiers
