/-
  Fabrika.Lib.Fields — fixed-width fields of a block: writing a part into a block at an offset
  (`array.set(part, offset)`) and reading a field of it (`array.subarray`).

  A block written field by field from its start on is the fields in order, with what is left
  of the fill behind them (`write_behind`), where a field is found by the widths before it
  (`field_at`).
-/

import Mathlib.Data.List.Basic
import Mathlib.Data.List.TakeDrop

namespace Fabrika.Lib.Fields

variable {α : Type}

/-- A part that ends within the block replaces what stood in its place. -/
def write (block : List α) (offset : Nat) (part : List α) : List α :=
  block.take offset ++ part ++ block.drop (offset + part.length)

def field (block : List α) (offset length : Nat) : List α := (block.drop offset).take length

/-! ## Writing -/

variable {offset : Nat}

/-- A part written where the fill starts. -/
theorem write_behind {done : List α} {fill : α} {room : Nat} (hoffset : done.length = offset) (part : List α) :
    write (done ++ List.replicate room fill) offset part = done ++ part ++ List.replicate (room - part.length) fill := by
  subst hoffset
  rw [write, List.take_left, List.drop_append, List.drop_replicate]
  have hpast : done.drop (done.length + part.length) = [] := List.drop_eq_nil_of_le (by omega)
  rw [hpast, List.nil_append]
  congr 2
  omega

/-- A part written over another of its length. -/
theorem write_over {before old after : List α} (hoffset : before.length = offset) {part : List α}
    (hlength : part.length = old.length) : write (before ++ old ++ after) offset part = before ++ part ++ after := by
  subst hoffset
  have htake : (before ++ old ++ after).take before.length = before := by
    rw [List.append_assoc, List.take_left]
  rw [write, htake, hlength, ← List.length_append, List.drop_left]

/-! ## Reading -/

/-- A field of fields in order is found by the widths before it. -/
theorem field_at {block before part : List α} {length : Nat} (hblock : ∃ rest, before ++ part ++ rest = block)
    (hoffset : before.length = offset) (hlength : part.length = length) : field block offset length = part := by
  obtain ⟨rest, rfl⟩ := hblock
  subst hoffset hlength
  rw [field, List.append_assoc, List.drop_left, List.take_left]

end Fabrika.Lib.Fields
