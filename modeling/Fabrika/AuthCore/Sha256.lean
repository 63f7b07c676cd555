/-
  Fabrika.AuthCore.Sha256 — what sha256.ts answers: the SHA-256 of a text's UTF-8 bytes, as 64
  lower-case hex digits (`length_sha256Hex`, `isHexDigit_of_mem_sha256Hex`).

  The digest is the standard's here; the code's own steps are `Fabrika.AuthCore.Sha256Numbers`, and
  they answer this (`Sha256.sha256Hex_eq`). `TextEncoder` writes U+FFFD for a surrogate without its
  partner.
-/

import Fabrika.Lib.Sha2
import Fabrika.Lib.Text
import Fabrika.Lib.Utf16

namespace Fabrika.AuthCore

open Fabrika.Lib

/-! ## The bytes of a text -/

def utf8 (c : Nat) : List UInt8 :=
  if c < 0x80 then [c.toUInt8]
  else if c < 0x800 then [(0xC0 + c / 0x40).toUInt8, (0x80 + c % 0x40).toUInt8]
  else if c < 0x10000 then [(0xE0 + c / 0x1000).toUInt8, (0x80 + c / 0x40 % 0x40).toUInt8, (0x80 + c % 0x40).toUInt8]
  else
    [(0xF0 + c / 0x40000).toUInt8, (0x80 + c / 0x1000 % 0x40).toUInt8, (0x80 + c / 0x40 % 0x40).toUInt8,
      (0x80 + c % 0x40).toUInt8]

def textEncoderEncode (text : Units) : List UInt8 := (codePoints text).flatMap utf8

/-! ## The digest -/

/-- The digits of a word, most significant first. -/
def Sha256.hexDigits (width n : Nat) : List Char := (List.range width).map fun i => (n / 16 ^ (width - 1 - i) % 16).digitChar

/-- The lower-case hex digest of SHA-256. -/
def Sha256.hexDigest (hash : Sha2.Working) : String := String.ofList (hash.words.flatMap fun w => Sha256.hexDigits 8 w.toNat)

def sha256Hex (text : Units) : String := Sha256.hexDigest (Sha2.sha256 (Sha2.bytesToBits (textEncoderEncode text)))

theorem length_sha256Hex (text : Units) : (sha256Hex text).toList.length = 64 := by
  rw [sha256Hex, Sha256.hexDigest, String.toList_ofList]
  rfl

theorem isHexDigit_digitChar {d : Nat} (h : d < 16) : Text.isHexDigit d.digitChar = true := by
  revert h
  revert d
  decide

theorem isHexDigit_of_mem_sha256Hex {text : Units} {c : Char} (h : c ∈ (sha256Hex text).toList) : Text.isHexDigit c = true := by
  rw [sha256Hex, Sha256.hexDigest, String.toList_ofList, List.mem_flatMap] at h
  obtain ⟨word, _, h⟩ := h
  obtain ⟨i, _, rfl⟩ := List.mem_map.mp h
  exact isHexDigit_digitChar (Nat.mod_lt _ (by decide))

end Fabrika.AuthCore
