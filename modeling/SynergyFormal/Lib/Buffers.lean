import SynergyFormal.Lib.Wire

/-!
# Byte buffers at addresses

A buffer is a run of bytes at an address.  A load goes through the live buffers and fails
at an address that no buffer holds, so a computation that ends has read inside the
buffers only.  The two ranges of a program argument are covered by one rule each:
`loadRange_inside` for a range of the first buffer and `loadRange_outside` for a range
that leaves the buffers.
-/

set_option autoImplicit false

namespace SynergyLib.Buffers

open Wire

structure Buffer where
  start : Nat
  bytes : Bytes
  deriving DecidableEq

def Buffer.finish (buffer : Buffer) : Nat := buffer.start + buffer.bytes.length

def Buffer.Holds (buffer : Buffer) (address : Nat) : Prop :=
  buffer.start ≤ address ∧ address < buffer.finish

instance (buffer : Buffer) (address : Nat) : Decidable (buffer.Holds address) :=
  inferInstanceAs (Decidable (_ ∧ _))

/-- No address lies in both buffers; an empty buffer is apart from every other. -/
def Apart (first second : Buffer) : Prop :=
  first.bytes = [] ∨ second.bytes = [] ∨ first.finish ≤ second.start ∨ second.finish ≤ first.start

instance (first second : Buffer) : Decidable (Apart first second) :=
  inferInstanceAs (Decidable (_ ∨ _))

def load : List Buffer → Nat → Option UInt8
  | [], _ => none
  | buffer :: others, address =>
    if buffer.Holds address then buffer.bytes[address - buffer.start]? else load others address

def loadRange (live : List Buffer) (address : Nat) : Nat → Option Bytes
  | 0 => some []
  | count + 1 =>
    (load live address).bind fun byte =>
      (loadRange live (address + 1) count).map fun bytes => byte :: bytes

theorem load_inside (buffer : Buffer) (others : List Buffer) (i : Nat)
    (inside : i < buffer.bytes.length) :
    load (buffer :: others) (buffer.start + i) = buffer.bytes[i]? := by
  have held : buffer.Holds (buffer.start + i) :=
    ⟨Nat.le_add_right _ _, Nat.add_lt_add_left inside _⟩
  simp only [load, if_pos held, Nat.add_sub_cancel_left]

theorem load_outside {live : List Buffer} {address : Nat}
    (outside : ∀ buffer ∈ live, ¬ buffer.Holds address) : load live address = none := by
  induction live with
  | nil => rfl
  | cons buffer others ih =>
    simp only [load, if_neg (outside buffer List.mem_cons_self)]
    exact ih fun other member => outside other (List.mem_cons_of_mem _ member)

theorem loadRange_inside (buffer : Buffer) (others : List Buffer) (count : Nat) :
    ∀ i : Nat, i + count ≤ buffer.bytes.length →
      loadRange (buffer :: others) (buffer.start + i) count =
        some ((buffer.bytes.drop i).take count) := by
  induction count with
  | zero =>
    intro i _
    simp [loadRange]
  | succ count ih =>
    intro i inside
    have here : i < buffer.bytes.length := by omega
    have later := ih (i + 1) (by omega)
    rw [← Nat.add_assoc] at later
    simp only [loadRange, load_inside buffer others i here, later,
      List.getElem?_eq_getElem here, Option.bind_some, Option.map_some,
      List.drop_eq_getElem_cons here, List.take_succ_cons]

theorem loadRange_outside {live : List Buffer} {hole count : Nat}
    (missing : load live hole = none) : ∀ address : Nat, address ≤ hole → hole < address + count →
      loadRange live address count = none := by
  induction count with
  | zero =>
    intro address below above
    omega
  | succ count ih =>
    intro address below above
    rcases Nat.eq_or_lt_of_le below with reached | before
    · simp only [loadRange, reached, missing, Option.bind_none]
    · simp only [loadRange, ih (address + 1) before (by omega),
        Option.map_none, Option.bind_fun_none]

end SynergyLib.Buffers
