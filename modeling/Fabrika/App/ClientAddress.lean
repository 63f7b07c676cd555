/-
  Fabrika.App.ClientAddress — the client a per-client bucket counts (implement/client-address.ts
  `clientKey`), and the addresses it stands for.

  A header value is a byte string: its characters are of Latin-1, so one character is one code
  unit, and the lower case of one is one.
-/

import Fabrika.Lib.FixedText
import Fabrika.Lib.Text

namespace Fabrika.App.ClientAddress

open Fabrika.Lib

/-- A text, character by character. -/
abbrev Chars := List Char

/-! ## The client key -/

def maxAddressLength : Nat := 64

/-- `25[0-5]|2[0-4]\d|1\d\d|[1-9]?\d`, over a whole text. -/
def isOctet : Chars → Bool
  | [c] => FixedText.isDigit c
  | [b, c] => ('1' ≤ b && b ≤ '9') && FixedText.isDigit c
  | [a, b, c] =>
    (a = '2' && b = '5' && ('0' ≤ c && c ≤ '5')) || (a = '2' && ('0' ≤ b && b ≤ '4') && FixedText.isDigit c) ||
      (a = '1' && FixedText.isDigit b && FixedText.isDigit c)
  | _ => false

/-- `IPV4.test`: four octets between points, since an octet holds none. -/
def isIpv4 (text : Chars) : Bool :=
  let octets := Text.splitChars '.' text
  octets.length = 4 && octets.all isOctet

/-- `HEXTET.test`. -/
def isHextet (text : Chars) : Bool := 1 ≤ text.length && text.length ≤ 4 && text.all Text.isHexDigit

/-- `Number(text)` of decimal digits. -/
def number (text : Chars) : Nat := FixedText.decimal text

/-- `Number.parseInt(text, 16)` of hex digits. -/
def parseHex (text : Chars) : Nat := text.foldl (fun n c => 16 * n + (Text.hexDigit c).getD 0) 0

/-- The two groups a dotted quad counts as. -/
def quadGroups (text : Chars) : List Nat :=
  match (Text.splitChars '.' text).map number with
  | [a, b, c, d] => [a * 256 + b, c * 256 + d]
  | _ => [0, 0]

/-- The groups of the parts between colons; only the last may be a dotted quad. -/
def readParts : List Chars → Option (List Nat)
  | [] => some []
  | [part] =>
    if isIpv4 part then some (quadGroups part) else if isHextet part then some [parseHex part] else none
  | part :: rest => if isHextet part then (readParts rest).map (parseHex part :: ·) else none

def groupsOf (half : Chars) : Option (List Nat) := if half = [] then some [] else readParts (Text.splitChars ':' half)

/-- `address.split('::')`. -/
def splitColons : Chars → List Chars
  | ':' :: ':' :: rest => [] :: splitColons rest
  | c :: rest => (splitColons rest).modifyHead (c :: ·)
  | [] => [[]]

def ipv6Groups (text : Chars) : Option (List Nat) :=
  let address := (Text.splitChars '%' text).headD []
  match splitColons address with
  | [whole] => (groupsOf whole).filter (·.length = 8)
  | [left, right] => do
    let head ← groupsOf left
    let tail ← groupsOf right
    let missing : Int := 8 - head.length - tail.length
    if missing < 1 then none else some (head ++ List.replicate missing.toNat 0 ++ tail)
  | _ => none

def unknown : Chars := "unknown".toList

def decimalText (n : Nat) : Chars := Nat.toDigits 10 n

def hexText (n : Nat) : Chars := Nat.toDigits 16 n

/-- `[high >> 8, high & 0xff, low >> 8, low & 0xff].join('.')`. -/
def quadText (high low : Nat) : Chars :=
  ['.'].intercalate ([high >>> 8, high &&& 0xff, low >>> 8, low &&& 0xff].map decimalText)

def isMapped (groups : List Nat) : Bool := (groups.take 5).all (· = 0) && groups[5]? = some 0xffff

def groupsKey (groups : List Nat) : Chars :=
  if isMapped groups then quadText (groups.getD 6 0) (groups.getD 7 0)
  else [':'].intercalate ((groups.take 4).map hexText) ++ "::/64".toList

/-- The text of the header that `clientKey` reads. -/
def firstElement (header : Option Chars) : Chars :=
  Text.trimChars ((Text.splitChars ',' (header.getD [])).headD [])

def withoutBrackets (value : Chars) : Chars :=
  if value.head? = some '[' ∧ value.getLast? = some ']' then (value.drop 1).dropLast else value

def clientKey (header : Option Chars) : Chars :=
  let value := (firstElement header).map Text.lowerChar
  if value = [] ∨ value.length > maxAddressLength then unknown
  else if isIpv4 value then value
  else match ipv6Groups (withoutBrackets value) with
    | none => unknown
    | some groups => groupsKey groups

/-! ## Addresses and their texts -/

/-- The eight groups of an IPv6 address. -/
structure Groups where
  list : List Nat
  length_eq : list.length = 8
  lt : ∀ group ∈ list, group < 0x10000

inductive Address
  | v4 (a b c d : Fin 256)
  | v6 (groups : Groups)

/-- Four octets in decimal, without leading zeros, between points. -/
def QuadText (text : Chars) (a b c d : Fin 256) : Prop :=
  text = ['.'].intercalate ([a.val, b.val, c.val, d.val].map decimalText)

/-- A group: one to four hex digits, of either case. -/
def GroupText (text : Chars) (n : Nat) : Prop :=
  1 ≤ text.length ∧ text.length ≤ 4 ∧ (∀ c ∈ text, (Text.hexDigit c).isSome) ∧ n = parseHex text

/-- Groups between colons; with `quad`, the last two may be a dotted quad. -/
inductive HalfText (quad : Bool) : Chars → List Nat → Prop
  | group {text : Chars} {n : Nat} : GroupText text n → HalfText quad text [n]
  | quad {text : Chars} {a b c d : Fin 256} : quad = true → QuadText text a b c d →
      HalfText quad text [a.val * 256 + b.val, c.val * 256 + d.val]
  | cons {text rest : Chars} {n : Nat} {groups : List Nat} : GroupText text n → HalfText quad rest groups →
      HalfText quad (text ++ ':' :: rest) (n :: groups)

/-- The groups on one side of `::`, possibly none. -/
def SideText (quad : Bool) (text : Chars) (groups : List Nat) : Prop :=
  (text = [] ∧ groups = []) ∨ HalfText quad text groups

/-- The text representations of RFC 4291: eight groups, or fewer around one `::` that stands
    for the zero groups left out, the last two possibly as a dotted quad. A `loose` one may
    have a dotted quad before `::` too. -/
inductive Ipv6Text (loose : Bool) : Chars → List Nat → Prop
  | full {text : Chars} {groups : List Nat} : HalfText true text groups → groups.length = 8 → Ipv6Text loose text groups
  | compressed {left right : Chars} {head tail : List Nat} : SideText loose left head → SideText true right tail →
      head.length + tail.length < 8 →
      Ipv6Text loose (left ++ ':' :: ':' :: right) (head ++ List.replicate (8 - head.length - tail.length) 0 ++ tail)

/-- An address and its zone id, if it has one; a `loose` one may be empty. -/
inductive ScopedText (loose : Bool) : Chars → List Nat → Prop
  | plain {text : Chars} {groups : List Nat} : Ipv6Text loose text groups → ScopedText loose text groups
  | zone {text zone : Chars} {groups : List Nat} : Ipv6Text loose text groups → (loose = true ∨ zone ≠ []) →
      ScopedText loose (text ++ '%' :: zone) groups

/-- The texts of an address; one of IPv6 may stand in brackets. -/
inductive Denotes (loose : Bool) : Chars → Address → Prop
  | v4 {text : Chars} {a b c d : Fin 256} : QuadText text a b c d → Denotes loose text (.v4 a b c d)
  | v6 {text : Chars} {groups : Groups} : ScopedText loose text groups.list → Denotes loose text (.v6 groups)
  | brackets {text : Chars} {groups : Groups} : ScopedText loose text groups.list →
      Denotes loose ('[' :: text ++ [']']) (.v6 groups)

/-- Of no address, but for a dotted quad before `::` or an empty zone id. -/
def Misspelled (text : Chars) : Prop := (∃ x, Denotes true text x) ∧ ∀ x, ¬ Denotes false text x

/-- The IPv4 address an address is, itself or mapped. -/
def Address.quad? : Address → Option (Nat × Nat × Nat × Nat)
  | .v4 a b c d => some (a, b, c, d)
  | .v6 groups =>
    if isMapped groups.list then
      let high := groups.list.getD 6 0
      let low := groups.list.getD 7 0
      some (high / 256, high % 256, low / 256, low % 256)
    else none

/-- The /64 of an address, by its first four groups. -/
def Address.network : Address → List Nat
  | .v4 .. => []
  | .v6 groups => groups.list.take 4

/-- One client: the same IPv4 address, or the same /64 of addresses that are not mapped. -/
def SameClient (x y : Address) : Prop := x.quad? = y.quad? ∧ (x.quad? = none → x.network = y.network)

end Fabrika.App.ClientAddress
