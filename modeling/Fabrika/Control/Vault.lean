/-
  Fabrika.Control.Vault — control/src/vault.ts: the encrypted secret vault, with master-key rotation.

  A value is sealed under a data key of its own, which the master key wraps; the four base64 texts of
  the envelope are one row. AES-GCM is `Gcm`: it opens what it sealed under the same key and IV and
  refuses everything else. Keys and IVs are random, so they are arguments. `rotate` reads its row
  before it writes; `reencryptAll` reads every row at once and then re-wraps one after the other, so
  other statements run between (`World.step`).
-/

import Fabrika.AuthCore.OpsDump
import Fabrika.Lib.Base64
import Fabrika.Lib.Text

namespace Fabrika.Control.Vault

open Fabrika.AuthCore.OpsDump Fabrika.Lib

abbrev Key := Bytes

structure Gcm where
  encrypt : (key iv plaintext : Bytes) → Bytes
  decrypt : (key iv ciphertext : Bytes) → Option Bytes
  decrypts : ∀ key iv plaintext, decrypt key iv (encrypt key iv plaintext) = some plaintext
  refuses : ∀ key iv key' iv' plaintext, (key, iv) ≠ (key', iv') → decrypt key iv (encrypt key' iv' plaintext) = none

variable (gcm : Gcm)

/-! ## Texts and bytes -/

def toBase64 (bytes : Bytes) : String := String.ofList (Base64.encode bytes)

def fromBase64 (b64 : String) : Option Bytes := Base64.decode b64.toList

/-- `new TextDecoder().decode`: a leading byte order mark is dropped. -/
def decodeText (bytes : Bytes) : String :=
  match decodeUtf8 bytes with
  | [] => ""
  | c :: rest => if c = '\ufeff' then String.ofList rest else String.ofList (c :: rest)

def keyBytes : Nat := 32

/-- A raw AES key has 128, 192 or 256 bits. -/
def importKey (raw : Bytes) : Option Key := if raw.length = 16 ∨ raw.length = 24 ∨ raw.length = 32 then some raw else none

def importMasterKey (base64Key : String) : Option Key :=
  match fromBase64 base64Key with
  | none => none
  | some raw => if raw.length = keyBytes then importKey raw else none

/-! ## Envelopes -/

structure Envelope where
  ciphertext : String
  valueIv : String
  wrappedDek : String
  dekIv : String
  deriving DecidableEq

/-- What `seal` draws: a fresh data key and two IVs. -/
structure Random where
  dek : Bytes
  valueIv : Bytes
  dekIv : Bytes
  length : dek.length = keyBytes

def seal_ (masterKey : Key) (plaintext : String) (random : Random) : Envelope where
  ciphertext := toBase64 (gcm.encrypt random.dek random.valueIv (utf8 plaintext.toList))
  valueIv := toBase64 random.valueIv
  wrappedDek := toBase64 (gcm.encrypt masterKey random.dekIv random.dek)
  dekIv := toBase64 random.dekIv

def unwrap (masterKey : Key) (wrappedDek dekIv : String) : Option Bytes := do
  let iv ← fromBase64 dekIv
  let wrapped ← fromBase64 wrappedDek
  gcm.decrypt masterKey iv wrapped

/-- Nothing where it throws. -/
def open_ (masterKey : Key) (env : Envelope) : Option String := do
  let dekRaw ← unwrap gcm masterKey env.wrappedDek env.dekIv
  let dek ← importKey dekRaw
  let iv ← fromBase64 env.valueIv
  let ciphertext ← fromBase64 env.ciphertext
  let plaintext ← gcm.decrypt dek iv ciphertext
  some (decodeText plaintext)

/-- The re-wrapped data key and its IV. -/
def rewrapDek (oldKey newKey : Key) (wrappedDek dekIv : String) (iv : Bytes) : Option (String × String) :=
  (unwrap gcm oldKey wrappedDek dekIv).map fun dekRaw => (toBase64 (gcm.encrypt newKey iv dekRaw), toBase64 iv)

/-! ## The table -/

inductive SecretScope
  | app
  | appEnv
  | platform
  deriving DecidableEq

structure VaultRow where
  id : String
  scope : SecretScope
  label : String
  envelope : Envelope
  rotatedAt : Option Nat
  deriving DecidableEq

def vaultRef (id : String) : String := "vault:" ++ id

def parseVaultRef (ref : String) : Option String :=
  if Text.startsWith ref "vault:" then some (String.ofList (ref.toList.drop 6)) else none

def loadRow (rows : List VaultRow) (ref : String) : Option VaultRow :=
  (parseVaultRef ref).bind fun id => rows.find? (·.id = id)

def getSecret (masterKey : Key) (rows : List VaultRow) (ref : String) : Option String :=
  (loadRow rows ref).bind fun row => open_ gcm masterKey row.envelope

structure VaultSecretPurpose where
  scope : SecretScope
  label : String
  deriving DecidableEq

def getSecretForPurpose (masterKey : Key) (rows : List VaultRow) (ref : String) (purpose : VaultSecretPurpose) : Option String :=
  match loadRow rows ref with
  | none => none
  | some row =>
    if row.scope ≠ purpose.scope ∨ row.label ≠ purpose.label then none else open_ gcm masterKey row.envelope

/-- `UPDATE vault … WHERE id = ?`. -/
def updateRow (rows : List VaultRow) (id : String) (change : VaultRow → VaultRow) : List VaultRow :=
  rows.map fun row => if row.id = id then change row else row

/-! ## Runs -/

/-- A `rotate` behind its read: the statement it will run, and the value given. -/
structure Rotation where
  id : String
  value : String
  envelope : Envelope
  now : Nat

inductive Reencryption
  | idle
  /-- The rows read that are still to be re-wrapped. -/
  | running (left : List VaultRow)
  | threw

structure World where
  rows : List VaultRow
  rotations : List Rotation
  reencryption : Reencryption
  /-- The value last given for an id. -/
  given : String → Option String

/-- The master key a `Vault` was created with. -/
inductive Binding
  | old
  | new
  deriving DecidableEq

def Binding.key (oldKey newKey : Key) : Binding → Key
  | .old => oldKey
  | .new => newKey

inductive Event
  | putSecret (binding : Binding) (id : String) (scope : SecretScope) (label value : String) (random : Random)
  /-- `rotate` reads its row and seals. -/
  | rotate (binding : Binding) (ref value : String) (random : Random) (now : Nat)
  /-- The statement of the n-th `rotate` under way. -/
  | rotated (n : Nat)
  | delete (ref : String)
  /-- `reencryptAll` reads the table. -/
  | reencryptAll
  /-- The next row, re-wrapped under a fresh IV. -/
  | rewrap (iv : Bytes) (now : Nat)

def World.start : World := ⟨[], [], .idle, fun _ => none⟩

variable (oldKey newKey : Key)

def World.step (w : World) : Event → World
  | .putSecret binding id scope label value random =>
    if w.rows.any (·.id = id) then w
    else
      { w with
        rows := w.rows ++ [⟨id, scope, label, seal_ gcm (binding.key oldKey newKey) value random, none⟩]
        given := Function.update w.given id (some value) }
  | .rotate binding ref value random now =>
    match loadRow w.rows ref with
    | none => w
    | some row =>
      { w with rotations := w.rotations ++ [⟨row.id, value, seal_ gcm (binding.key oldKey newKey) value random, now⟩] }
  | .rotated n =>
    match w.rotations[n]? with
    | none => w
    | some rotation =>
      { w with
        rows := updateRow w.rows rotation.id fun row => { row with envelope := rotation.envelope, rotatedAt := some rotation.now }
        rotations := w.rotations.eraseIdx n
        given := Function.update w.given rotation.id (some rotation.value) }
  | .delete ref =>
    match parseVaultRef ref with
    | none => w
    | some id => { w with rows := w.rows.filter (·.id ≠ id) }
  | .reencryptAll =>
    match w.reencryption with
    | .idle => { w with reencryption := .running w.rows }
    | _ => w
  | .rewrap iv now =>
    match w.reencryption with
    | .running (row :: rest) =>
      match rewrapDek gcm oldKey newKey row.envelope.wrappedDek row.envelope.dekIv iv with
      | none => { w with reencryption := .threw }
      | some (wrappedDek, dekIv) =>
        { w with
          rows := updateRow w.rows row.id fun stored =>
            { stored with envelope := { stored.envelope with wrappedDek, dekIv }, rotatedAt := some now }
          reencryption := .running rest }
    | _ => w

def World.after (w : World) (events : List Event) : World := events.foldl (World.step gcm oldKey newKey) w

end Fabrika.Control.Vault
