/-
  Fabrika.App.Tokens — signed tokens (implement/tokens.ts): the keys an environment reads, what a
  site signs, and what the framework verifies.

  A text is its code units and a claims value the JSON value it is; a member that is `undefined`
  is one that is not there. Purposes are names the contract compiler admits.
-/

import Fabrika.Lib.Base64
import Fabrika.Lib.Hmac
import Fabrika.Lib.JsonParse
import Fabrika.Lib.Urlencoded

namespace Fabrika.App.Tokens

open Fabrika.Lib
open Fabrika.Lib.Double (Number)

abbrev Bytes := List UInt8

/-! ## Buffers -/

/-- `Buffer.from(text)`. -/
def buffer (text : Units) : Bytes := Urlencoded.utf8 (usvString text)

/-- `buffer.toString('utf8')`. -/
def utf8Text (bytes : Bytes) : Units := codeUnits (String.ofList (Urlencoded.decodeUtf8 bytes.length bytes))

/-- `buffer.toString('base64url')`. -/
def base64url (bytes : Bytes) : Units := (Base64.encodeUrl bytes).map Char.toNat

/-- `Buffer.from(text, 'base64url')`. -/
def fromBase64url (text : Units) : Bytes := Base64.decodeUrl (text.map Char.ofNat)

/-! ## Keys -/

structure TokenKey where
  id : Units
  secret : Bytes
  deriving DecidableEq

def minSecretBytes : Nat := 32

/-- `[A-Za-z0-9_-]`. -/
def isUrlUnit (u : Nat) : Bool :=
  (0x41 ≤ u && u ≤ 0x5a) || (0x61 ≤ u && u ≤ 0x7a) || (0x30 ≤ u && u ≤ 0x39) || u = 0x5f || u = 0x2d

/-- `KEY_ID.test`. -/
def isKeyId (id : Units) : Bool := 8 ≤ id.length && id.length ≤ 64 && id.all isUrlUnit

/-- `BASE64URL.test`. -/
def isBase64url (text : Units) : Bool := text ≠ [] && text.all isUrlUnit

/-- One entry of the list after the keys read before it. An entry without a colon has no
    secret, so what its id would be does not matter. -/
def readEntry (keys : List TokenKey) (entry : Units) : Option TokenKey :=
  match entry.dropWhile (· ≠ 0x3a) with
  | [] => none
  | _ :: encoded =>
    let id := entry.takeWhile (· ≠ 0x3a)
    if !isBase64url encoded then none
    else
      let secret := fromBase64url encoded
      if !isKeyId id || secret.length < minSecretBytes || keys.any (·.id = id) then none else some ⟨id, secret⟩

def readEntries (keys : List TokenKey) : List Units → Option (List TokenKey)
  | [] => some keys
  | entry :: rest => (readEntry keys entry).bind fun key => readEntries (keys ++ [key]) rest

def unsetProblem : String :=
  "FABRIKA_TOKEN_KEYS is not set; the contract declares token purposes, and the deploy writes their keys"

def malformedProblem : String :=
  "FABRIKA_TOKEN_KEYS is not a list of <key id>:<secret> entries, each id once and each secret at least 32 bytes"

/-- The keys `readTokenKeys` answers and the problems after it. `setting` is the framework's
    `FABRIKA_TOKEN_KEYS`, `purposes` the names of the artifact's token purposes. -/
def readTokenKeys (setting : Option Units) (purposes : Option (List String)) (problems : List String) :
    Option (List TokenKey) × List String :=
  let value := (setting.map Double.trim).getD []
  if purposes.getD [] = [] then (none, problems)
  else if value = [] then (none, problems ++ [unsetProblem])
  else match readEntries [] (value.splitOn 0x2c) with
    | none => (none, problems ++ [malformedProblem])
    | some keys => (some keys, problems)

/-! ## Purposes -/

/-- A claims schema: what `z.safeParse` makes of a value. The contract compiler refuses one that
    is no object schema. -/
structure Schema where
  parse : Json Number → Option (Json Number)
  object : ∀ {value claims}, parse value = some claims → ∃ fields, claims = .obj fields
  proper : ∀ {value claims}, value.Proper → parse value = some claims → claims.Proper

def tokenMaxDays : Nat := 3650

structure RuntimePurpose where
  claims : Schema
  maxDays : Nat
  bounded : maxDays ≤ tokenMaxDays

structure SignedTokens where
  purposes : String → Option RuntimePurpose
  keys : List TokenKey

/-- What `Date.now` answers. -/
structure Time where
  ms : Nat
  le : ms ≤ 8640000000000000

/-- `Math.floor(now / 1000)`. -/
def Time.seconds (now : Time) : Nat := now.ms / 1000

/-! ## Signing -/

def daySeconds : Nat := 86400

/-- A value a program holds. -/
structure Value where
  json : Json Number
  proper : json.Proper

/-- `options.days`: the safe integer, if it is one, and its text. -/
structure Days where
  value : Option Int
  text : String

structure Refusal where
  code : String
  message : String

def undeclared (site purpose : String) : Refusal := ⟨"undeclared_signs", s!"{site} does not declare signs: ['{purpose}']"⟩

def daysRefused (site purpose days : String) (most : Nat) : Refusal :=
  ⟨"undeclared_signs", s!"{site} signed a '{purpose}' token for {days} days; the purpose allows 1 to {most}"⟩

def claimsRefused (site purpose : String) : Refusal :=
  ⟨"token_claims_refused", s!"{site} signed a '{purpose}' token whose claims its schema refuses"⟩

def keysMissing (site purpose : String) : Refusal :=
  ⟨"token_keys_missing", s!"{site} signed a '{purpose}' token, and the environment holds no token key"⟩

/-- A whole number as the arithmetic of doubles has it. -/
def wholeNumber (n : Nat) : Number :=
  match Double.nearest n (Nat.cast_nonneg n) with
  | some x => .finite x
  | none => .infinite false

def body (purpose : String) (expiresAt : Nat) (data : Json Number) : Json Number :=
  Json.object [("p", Json.text purpose), ("x", .num (wholeNumber expiresAt)), ("c", data)]

def payloadOf (purpose : String) (expiresAt : Nat) (data : Json Number) : Units :=
  base64url (buffer (Json.stringify (body purpose expiresAt data)))

/-- What the signature is over. -/
def signedText (id payload : Units) : Units := id ++ 0x2e :: payload

/-- `createHmac('sha256', key.secret).update(text).digest('base64url')`. -/
def hmacText (secret : Bytes) (text : Units) : Units := base64url (Hmac.hmac secret (buffer text))

def signature (key : TokenKey) (payload : Units) : Units := hmacText key.secret (signedText key.id payload)

def sign (tokens : SignedTokens) (now : Time) (site : String) (signs : List String) (purpose : String) (claims : Value)
    (days : Days) :
    Except Refusal Units :=
  match if signs.contains purpose then tokens.purposes purpose else none with
  | none => .error (undeclared site purpose)
  | some declared =>
    match days.value.filter fun count : Int => 1 ≤ count && count ≤ declared.maxDays with
    | none => .error (daysRefused site purpose days.text declared.maxDays)
    | some count =>
      match declared.claims.parse claims.json with
      | none => .error (claimsRefused site purpose)
      | some data =>
        match tokens.keys with
        | [] => .error (keysMissing site purpose)
        | key :: _ =>
          let expiresAt := now.seconds + count.toNat * daySeconds
          let payload := payloadOf purpose expiresAt data
          .ok (key.id ++ 0x2e :: payload ++ 0x2e :: signature key payload)

/-! ## Verifying -/

/-- A `BadRequestError`'s message. -/
inductive BadToken
  | invalid
  | expired
  deriving DecidableEq

def BadToken.message : BadToken → String
  | .invalid => "The signed token is not valid"
  | .expired => "The signed token has expired"

structure Payload where
  p : Units
  x : Int
  c : Option (Json Number)

/-- `z.int()`. -/
def intOf : Number → Option Int
  | .finite x => if x.value.den = 1 ∧ |x.value.num| < 2 ^ 53 then some x.value.num else none
  | .negZero => some 0
  | _ => none

/-- `payloadSchema`. -/
def payloadSchema : Json Number → Option Payload
  | .obj fields =>
    if fields.all fun field => [codeUnits "p", codeUnits "x", codeUnits "c"].contains field.1 then
      match fields.lookup (codeUnits "p"), fields.lookup (codeUnits "x") with
      | some (.str p), some (.num x) => (intOf x).map fun x => ⟨p, x, fields.lookup (codeUnits "c")⟩
      | _, _ => none
    else none
  | _ => none

def parsePayload (payload : Units) : Option Payload := (Json.parse (utf8Text (fromBase64url payload))).bind payloadSchema

def isRecord : Json Number → Bool
  | .obj _ => true
  | _ => false

def verify (tokens : SignedTokens) (now : Time) (purpose : String) (token : Units) : Except BadToken (Json Number) :=
  let segments := token.splitOn 0x2e
  let payload := segments.getD 1 []
  let given := segments.getD 2 []
  match tokens.keys.find? (·.id = segments.getD 0 []), tokens.purposes purpose with
  | some key, some declared =>
    if segments.length > 3 || !isBase64url payload || !isBase64url given then .error .invalid
    else if buffer given ≠ buffer (signature key payload) then .error .invalid
    else match parsePayload payload with
      | none => .error .invalid
      | some body =>
        if body.p ≠ codeUnits purpose then .error .invalid
        else if body.x ≤ now.seconds then .error .expired
        else match body.c.bind declared.claims.parse with
          | none => .error .invalid
          | some claims => if isRecord claims then .ok claims else .error .invalid
  | _, _ => .error .invalid

/-! ## What was signed -/

def Accepted (keys : List TokenKey) : Prop :=
  ∃ setting purposes problems problems', readTokenKeys setting purposes problems = (some keys, problems')

/-- One call of `sign` that answered, in an environment whose keys were read. -/
structure Signing where
  tokens : SignedTokens
  accepted : Accepted tokens.keys
  now : Time
  site : String
  signs : List String
  purpose : String
  claims : Value
  days : Days
  token : Units
  signed : sign tokens now site signs purpose claims days = .ok token

/-- The key a call signs with: the list's first. -/
def Signing.Under (s : Signing) (key : TokenKey) : Prop := s.tokens.keys.head? = some key

/-- The claims a token carries: what the schema made of the ones it was called with. -/
def Signing.Carries (s : Signing) (data : Json Number) : Prop :=
  ∃ declared, s.tokens.purposes s.purpose = some declared ∧ declared.claims.parse s.claims.json = some data

def Signing.expiresAt (s : Signing) : Nat := s.now.seconds + (s.days.value.getD 0).toNat * daySeconds

/-- The signature of a call is over this text. -/
def Signing.Covers (s : Signing) (secret : Bytes) (text : Units) : Prop :=
  ∃ key data, s.Under key ∧ s.Carries data ∧ secret = key.secret ∧ text = signedText key.id (payloadOf s.purpose s.expiresAt data)

/-- Nobody but `sign` signs with one of the keys: where the token closes with the HMAC of its own
    id and payload, a call of the history signed that text with that secret. -/
def Unforgeable (keys : List TokenKey) (history : List Signing) (token : Units) : Prop :=
  ∀ key ∈ keys, ∀ payload, isBase64url payload = true →
    token = key.id ++ 0x2e :: payload ++ 0x2e :: signature key payload →
    ∃ s ∈ history, s.Covers key.secret (signedText key.id payload)

end Fabrika.App.Tokens
