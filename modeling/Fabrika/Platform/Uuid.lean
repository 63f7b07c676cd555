/-
  Fabrika.Platform.Uuid — uuid.ts `uuidv7`: time-ordered ids of one generator.

  The generator holds the millisecond it last embedded and a counter; both are module variables
  of the source, passed here from call to call. Milliseconds are integers; `lastMillis += 1` is
  exact below 2^53. The bit operators and the typed array are those of `Fabrika.Lib.Int32`.
-/

import Fabrika.Lib.Int32
import Fabrika.Lib.Record
import Fabrika.Lib.Text

namespace Fabrika.Platform.Uuid

open Fabrika.Lib

def COUNTER_MAX : ℤ := 0xfff

def COUNTER_SEED_MASK : ℤ := 0xff

structure State where
  lastMillis : ℤ
  counter : ℤ
  deriving DecidableEq

def init : State := ⟨-1, 0⟩

/-- What `crypto.getRandomValues` leaves in a `Uint8Array(16)`. -/
structure RandomBytes where
  bytes : List Nat
  length_eq : bytes.length = 16
  lt : ∀ b ∈ bytes, b < 256

/-- `bytes[i] = x`. -/
def stored (x : ℤ) : Nat := (x % 256).toNat

def seedOf (random : RandomBytes) : ℤ := Int32.and (random.bytes.getD 7 0) COUNTER_SEED_MASK

def advance (s : State) (millis seed : ℤ) : State :=
  if millis > s.lastMillis then ⟨millis, seed⟩
  else if s.counter < COUNTER_MAX then ⟨s.lastMillis, s.counter + 1⟩
  -- exhausted: a millisecond is borrowed
  else ⟨s.lastMillis + 1, seed⟩

/-- `(lastMillis / 2 ** k) & 0xff`; no `lastMillis` that is embedded is negative. -/
def timeByte (lastMillis : ℤ) (k : ℕ) : Nat := stored (Int32.and (Int32.floorDiv lastMillis (2 ^ k)) 0xff)

def stamped (s : State) (random : RandomBytes) : List Nat :=
  [timeByte s.lastMillis 40, timeByte s.lastMillis 32, timeByte s.lastMillis 24, timeByte s.lastMillis 16,
    timeByte s.lastMillis 8, stored (Int32.and s.lastMillis 0xff),
    stored (Int32.or 0x70 (Int32.ushr s.counter 8)), stored (Int32.and s.counter 0xff),
    stored (Int32.or (Int32.and (random.bytes.getD 8 0) 0x3f) 0x80)] ++ random.bytes.drop 9

/-- `b.toString(16).padStart(2, '0')`. -/
def hexByte (b : Nat) : List Char := List.replicate (2 - (Nat.toDigits 16 b).length) '0' ++ Nat.toDigits 16 b

def slice (s : List Char) (start stop : Nat) : List Char := (s.take stop).drop start

def dashed (s : List Char) : List Char :=
  slice s 0 8 ++ '-' :: slice s 8 12 ++ '-' :: slice s 12 16 ++ '-' :: slice s 16 20 ++ '-' :: s.drop 20

def uuidv7 (s : State) (millis : ℤ) (random : RandomBytes) : String × State :=
  let s := advance s millis (seedOf random)
  (String.ofList (dashed ((stamped s random).flatMap hexByte)), s)

/-! ## Calls of one generator -/

/-- A call, of a millisecond an id can hold. -/
structure Call where
  millis : ℤ
  random : RandomBytes
  nonneg : 0 ≤ millis
  lt : millis < 2 ^ 48

def stateAfter (s : State) (calls : List Call) : State := calls.foldl (fun s call => (uuidv7 s call.millis call.random).2) s

/-- The ids of a run, oldest first. -/
def minted (s : State) : List Call → List String
  | [] => []
  | call :: rest => (uuidv7 s call.millis call.random).1 :: minted (uuidv7 s call.millis call.random).2 rest

/-! ## What an id says -/

/-- The largest millisecond the calls gave. -/
def largest (calls : List Call) : ℤ := calls.foldl (fun most call => max most call.millis) (-1)

/-- The calls that found the counter exhausted. -/
def exhausted (s : State) : List Call → ℤ
  | [] => 0
  | call :: rest =>
    (if call.millis ≤ s.lastMillis ∧ COUNTER_MAX ≤ s.counter then 1 else 0) + exhausted (uuidv7 s call.millis call.random).2 rest

def IsHex (text : List Char) : Prop := ∀ c ∈ text, ('0' ≤ c ∧ c ≤ '9') ∨ ('a' ≤ c ∧ c ≤ 'f')

/-- The number hex digits spell. -/
def hexNumber (text : List Char) : Nat := text.foldl (fun n c => 16 * n + (Text.hexDigit c).getD 0) 0

/-- A UUID of version 7 and variant 10, of this millisecond. -/
def IsUuidV7 (text : String) (millis : ℤ) : Prop :=
  ∃ high low count variant sequence node,
    text.toList = high ++ '-' :: low ++ '-' :: ('7' :: count) ++ '-' :: (variant :: sequence) ++ '-' :: node ∧
    high.length = 8 ∧ low.length = 4 ∧ count.length = 3 ∧ variant ∈ ['8', '9', 'a', 'b'] ∧ sequence.length = 3 ∧
      node.length = 12 ∧
    IsHex (high ++ low ++ count ++ sequence ++ node) ∧ (hexNumber (high ++ low) : ℤ) = millis

end Fabrika.Platform.Uuid
