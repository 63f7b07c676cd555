/-
  Fabrika.Lib.Hmac — HMAC-SHA256 over bytes: the hash of a message under a key.

  A key longer than a block is hashed first, a shorter one filled with zeros.
-/

import Fabrika.Lib.Sha2

namespace Fabrika.Lib.Hmac

abbrev Bytes := List UInt8

/-- The four bytes of a word, most significant first. -/
def wordBytes (w : Sha2.Word) : Bytes := [24, 16, 8, 0].map fun shift => UInt8.ofNat (w.toNat >>> shift)

def sha256 (message : Bytes) : Bytes := (Sha2.sha256 (Sha2.bytesToBits message)).words.flatMap wordBytes

def blockSize : Nat := 64

def blockKey (key : Bytes) : Bytes :=
  let short := if key.length > blockSize then sha256 key else key
  short ++ List.replicate (blockSize - short.length) 0

def hmac (key message : Bytes) : Bytes :=
  let inner := sha256 ((blockKey key).map (· ^^^ 0x36) ++ message)
  sha256 ((blockKey key).map (· ^^^ 0x5c) ++ inner)

theorem length_sha256 (message : Bytes) : (sha256 message).length = 32 := by
  simp [sha256, Sha2.Working.words, wordBytes]

theorem length_hmac (key message : Bytes) : (hmac key message).length = 32 := length_sha256 _

end Fabrika.Lib.Hmac
