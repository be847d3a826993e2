import SynergyFormal.Lib.Slices

/-!
# Logs of variable-length records

A record is a header of fixed length and a body whose length the header tells.  A log is
records one after another, with nothing between them.  A record keeps its place when the
log grows at its end, so an index of offsets made while the log was written stays good;
and reading from the start, one header at a time, comes to the same offsets again.
-/

set_option autoImplicit false

namespace SynergyLib.RecordLog

open List Wire Slices

structure Format where
  headerLen : Nat
  bodyLen : Bytes → Nat

structure Record (format : Format) where
  header : Bytes
  body : Bytes
  headerExact : header.length = format.headerLen
  bodyExact : body.length = format.bodyLen header

section Log
variable {format : Format}

def Record.size (r : Record format) : Nat := format.headerLen + format.bodyLen r.header

def Record.bytes (r : Record format) : Bytes := r.header ++ r.body

@[simp] theorem Record.bytes_length (r : Record format) : r.bytes.length = r.size := by
  rw [Record.bytes, List.length_append, r.headerExact, r.bodyExact, Record.size]

def logBytes (records : List (Record format)) : Bytes := records.flatMap Record.bytes

@[simp] theorem logBytes_nil : logBytes ([] : List (Record format)) = [] := rfl

@[simp] theorem logBytes_cons {r : Record format} {records : List (Record format)} :
    logBytes (r :: records) = r.bytes ++ logBytes records := rfl

variable {first second : List (Record format)} {skip : Nat}

theorem logBytes_append : logBytes (first ++ second) = logBytes first ++ logBytes second :=
  flatMap_append

/-! ## Places -/

def SitsAt (bytes : Bytes) (offset : Nat) (r : Record format) : Prop :=
  slice bytes offset r.size = some r.bytes

theorem sitsAt_middle (front back : Bytes) (r : Record format) :
    SitsAt (front ++ (r.bytes ++ back)) front.length r := by
  have middle := slice_middle front r.bytes back
  rwa [Record.bytes_length] at middle

theorem sitsAt_end (front : Bytes) (r : Record format) :
    SitsAt (front ++ r.bytes) front.length r := by
  have atEnd := sitsAt_middle front [] r
  rwa [append_nil] at atEnd

variable {r : Record format} {bytes : Bytes} {offset count : Nat}

theorem slice_header (inner : skip + count ≤ format.headerLen) :
    Slices.slice r.bytes skip count = Slices.slice r.header skip count :=
  slice_append (by rw [r.headerExact]; exact inner)

section Sits
variable (sits : SitsAt bytes offset r)
include sits

theorem SitsAt.inside : offset + r.size ≤ bytes.length :=
  slice_isSome_iff.mp (by rw [sits]; rfl)

theorem SitsAt.append (more : Bytes) : SitsAt (bytes ++ more) offset r :=
  (slice_append sits.inside).trans sits

theorem SitsAt.slice (inner : skip + count ≤ r.size) :
    Slices.slice bytes (offset + skip) count = Slices.slice r.bytes skip count := by
  have inside := sits.inside
  unfold SitsAt at sits
  rw [slice_inside inside, Option.some.injEq] at sits
  rw [slice_inside (by omega), slice_inside (by rw [Record.bytes_length]; exact inner), ← sits,
    drop_take, take_take, drop_drop, Nat.min_eq_left (by omega)]

theorem SitsAt.header (inner : skip + count ≤ format.headerLen) :
    Slices.slice bytes (offset + skip) count = Slices.slice r.header skip count := by
  rw [sits.slice (by unfold Record.size; omega), slice_header inner]

theorem SitsAt.body (inner : count ≤ format.bodyLen r.header) :
    Slices.slice bytes (offset + format.headerLen) count = some (r.body.take count) := by
  rw [sits.slice (by unfold Record.size; omega), slice_inside]
  · rw [Record.bytes, ← r.headerExact, drop_left]
  · rw [Record.bytes_length, Record.size]
    omega

theorem SitsAt.slice_header : Slices.slice bytes offset format.headerLen = some r.header := by
  have whole := sits.header (Nat.zero_add format.headerLen).le
  rw [Nat.add_zero] at whole
  rw [whole, slice_inside (by rw [r.headerExact, Nat.zero_add]), drop_zero,
    take_of_length_le r.headerExact.le]

theorem SitsAt.unique {other : Record format} (otherSits : SitsAt bytes offset other) :
    r = other := by
  have sameHeader : r.header = other.header :=
    Option.some.inj (sits.slice_header.symm.trans otherSits.slice_header)
  have sameSize : r.size = other.size := by rw [Record.size, Record.size, sameHeader]
  unfold SitsAt at sits otherSits
  rw [sameSize] at sits
  have sameBytes : r.header ++ r.body = other.header ++ other.body :=
    Option.some.inj (sits.symm.trans otherSits)
  obtain ⟨header, body, headerExact, bodyExact⟩ := r
  obtain ⟨header', body', headerExact', bodyExact'⟩ := other
  obtain rfl : header = header' := sameHeader
  obtain rfl : body = body' := append_cancel_left sameBytes
  rfl

end Sits

/-- What stands at an offset: no whole header, a header whose body is cut off, or a record. -/
theorem sitsAt_cases (format : Format) (bytes : Bytes) (offset : Nat) :
    bytes.length < offset + format.headerLen ∨
      (∃ header, slice bytes offset format.headerLen = some header ∧
        bytes.length < offset + format.headerLen + format.bodyLen header) ∨
      ∃ r : Record format, SitsAt bytes offset r := by
  rcases Nat.lt_or_ge bytes.length (offset + format.headerLen) with short | headerInside
  · exact Or.inl short
  have read := slice_inside headerInside
  generalize headerEq : (bytes.drop offset).take format.headerLen = header at read
  rcases Nat.lt_or_ge bytes.length (offset + format.headerLen + format.bodyLen header) with
    cut | inside
  · exact Or.inr (Or.inl ⟨header, read, cut⟩)
  refine Or.inr (Or.inr ⟨⟨header, (bytes.drop (offset + format.headerLen)).take
    (format.bodyLen header), length_of_slice read, ?_⟩, ?_⟩)
  · rw [length_take, length_drop]
    omega
  · change slice bytes offset (format.headerLen + format.bodyLen header) =
      some (header ++ (bytes.drop (offset + format.headerLen)).take (format.bodyLen header))
    rw [slice_inside (by omega), take_add, drop_drop, headerEq]

/-- The records of a log with their offsets. -/
def placed : Nat → List (Record format) → List (Nat × Record format)
  | _, [] => []
  | offset, r :: records => (offset, r) :: placed (offset + r.size) records

theorem placed_append : ∀ offset,
    placed offset (first ++ second) =
      placed offset first ++ placed (offset + (logBytes first).length) second := by
  induction first with
  | nil =>
    intro offset
    rfl
  | cons r first ih =>
    intro offset
    rw [cons_append, placed, ih, placed, logBytes_cons, length_append,
      Record.bytes_length, Nat.add_assoc, cons_append]

end Log

end SynergyLib.RecordLog
