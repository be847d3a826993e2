import SynergyFormal.Lib.Wire

/-!
# Bounded accesses to a vector of bytes

A read or a write of a range either lies inside the vector or does not happen: `none` is
an access outside.  A program that only touches its buffers through these operations
returns a result exactly when all its accesses are inside.
-/

set_option autoImplicit false

namespace SynergyLib.Slices

open Wire

def slice (bytes : Bytes) (offset count : Nat) : Option Bytes :=
  if offset + count ≤ bytes.length then some ((bytes.drop offset).take count) else none

def overwrite (bytes : Bytes) (offset : Nat) (new : Bytes) : Option Bytes :=
  if offset + new.length ≤ bytes.length then
    some (bytes.take offset ++ new ++ bytes.drop (offset + new.length))
  else none

/-- `std::vector::resize`. -/
def resize (bytes : Bytes) (count : Nat) : Bytes :=
  bytes.take count ++ List.replicate (count - bytes.length) 0

@[simp] theorem resize_length {bytes : Bytes} {count : Nat} :
    (resize bytes count).length = count := by
  simp only [resize, List.length_append, List.length_take, List.length_replicate]
  omega

section Slice
variable {bytes : Bytes} {offset count : Nat}

theorem slice_isSome_iff : (slice bytes offset count).isSome = true ↔
    offset + count ≤ bytes.length := by
  unfold slice
  split_ifs with inside
  · exact iff_of_true rfl inside
  · exact iff_of_false Bool.false_ne_true inside

theorem slice_inside (inside : offset + count ≤ bytes.length) :
    slice bytes offset count = some ((bytes.drop offset).take count) := if_pos inside

theorem slice_outside (outside : bytes.length < offset + count) :
    slice bytes offset count = none := if_neg (Nat.not_le.mpr outside)

theorem length_of_slice {part : Bytes} (read : slice bytes offset count = some part) :
    part.length = count := by
  have inside : offset + count ≤ bytes.length := slice_isSome_iff.mp (by rw [read]; rfl)
  rw [slice_inside inside, Option.some.injEq] at read
  rw [← read, List.length_take, List.length_drop]
  omega

theorem slice_middle (front part back : Bytes) :
    slice (front ++ (part ++ back)) front.length part.length = some part := by
  rw [slice_inside (by simp), List.drop_left, List.take_left]

theorem slice_append (inside : offset + count ≤ bytes.length) {more : Bytes} :
    slice (bytes ++ more) offset count = slice bytes offset count := by
  rw [slice_inside inside, slice_inside (by rw [List.length_append]; omega)]
  rw [List.drop_append_of_le_length (by omega), List.take_append_of_le_length]
  rw [List.length_drop]
  omega

theorem overwrite_isSome_iff {new : Bytes} : (overwrite bytes offset new).isSome = true ↔
    offset + new.length ≤ bytes.length := by
  unfold overwrite
  split_ifs with inside
  · exact iff_of_true rfl inside
  · exact iff_of_false Bool.false_ne_true inside

theorem length_of_overwrite {new result : Bytes}
    (written : overwrite bytes offset new = some result) : result.length = bytes.length := by
  have inside : offset + new.length ≤ bytes.length :=
    overwrite_isSome_iff.mp (by rw [written]; rfl)
  rw [overwrite, if_pos inside, Option.some.injEq] at written
  rw [← written]
  simp only [List.length_append, List.length_take, List.length_drop]
  omega

end Slice

/-! ## Pointers into a vector -/

structure Pointer where
  buffer : Bytes
  offset : Nat

/-- `count` bytes, `skip` behind the pointer. -/
def Pointer.read (p : Pointer) (skip count : Nat) : Option Bytes :=
  slice p.buffer (p.offset + skip) count

/-- The bytes from the pointer to the end of its vector. -/
def Pointer.room (p : Pointer) : Nat := p.buffer.length - p.offset

theorem Pointer.read_isSome_iff {p : Pointer} {skip count : Nat}
    (inside : p.offset ≤ p.buffer.length) :
    (p.read skip count).isSome = true ↔ skip + count ≤ p.room := by
  rw [Pointer.read, slice_isSome_iff, Pointer.room]
  omega

end SynergyLib.Slices
