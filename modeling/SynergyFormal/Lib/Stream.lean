import SynergyFormal.Lib.Wire

/-!
# Reading typed values from a stream of bytes

A source hands out the next bytes or fails; a reader is a state-passing computation on
its states.  `Reads holds reader bytes a` says that on every stream that continues with
`bytes`, whatever follows, the reader returns `a` and leaves what follows.  The rules
below carry it from one read to sequences, branches and counted lists.

`holds s room bytes` says what a state `s` still has to offer; `room` is the number of
bytes that can be taken before a position counter of the stream is exhausted.
-/

set_option autoImplicit false

namespace SynergyLib.Stream

open Wire

structure Source (S : Type) where
  read : Nat → StateT S Option Bytes

section Rules
variable {S A B : Type} {holds : S → Nat → Bytes → Prop}

def Reads (holds : S → Nat → Bytes → Prop) (reader : StateT S Option A) (bytes : Bytes) (a : A) :
    Prop :=
  ∀ s room rest, holds s room (bytes ++ rest) → bytes.length ≤ room →
    ∃ s', reader.run s = some (a, s') ∧ holds s' (room - bytes.length) rest

/-- The source delivers what its states hold. -/
def Delivers (source : Source S) (holds : S → Nat → Bytes → Prop) : Prop :=
  ∀ bytes : Bytes, Reads holds (source.read bytes.length) bytes bytes

theorem Reads.pure (a : A) : Reads holds (Pure.pure a : StateT S Option A) [] a := by
  intro s room rest offered _
  exact ⟨s, rfl, by simpa using offered⟩

variable {a : A} {reader : StateT S Option A} {source : Source S}

theorem Reads.bind {next : A → StateT S Option B} {front back : Bytes} {b : B}
    (first : Reads holds reader front a) (second : Reads holds (next a) back b) :
    Reads holds (reader >>= next) (front ++ back) b := by
  intro s room rest offered fits
  rw [List.append_assoc] at offered
  rw [List.length_append] at fits
  obtain ⟨middle, firstRun, remaining⟩ := first s room (back ++ rest) offered (by omega)
  obtain ⟨last, secondRun, final⟩ := second middle _ rest remaining (by omega)
  refine ⟨last, ?_, ?_⟩
  · rw [StateT.run_bind, firstRun]
    exact secondRun
  · rwa [List.length_append, ← Nat.sub_sub]

theorem Reads.map {bytes : Bytes} (first : Reads holds reader bytes a) (f : A → B) :
    Reads holds (do return f (← reader)) bytes (f a) := by
  have both : Reads holds (do return f (← reader)) (bytes ++ []) (f a) :=
    first.bind (Reads.pure (f a))
  rwa [List.append_nil] at both

/-! ## Elements one after another -/

def readMany (element : StateT S Option A) : Nat → StateT S Option (List A)
  | 0 => return []
  | count + 1 => do
      let a ← element
      let rest ← readMany element count
      return a :: rest

theorem Reads.many {element : StateT S Option A} {encode : A → Bytes} (xs : List A)
    (each : ∀ x ∈ xs, Reads holds element (encode x) x) :
    Reads holds (readMany element xs.length) (xs.flatMap encode) xs := by
  induction xs with
  | nil => exact Reads.pure []
  | cons x xs ih =>
    have rest := ih fun y member => each y (List.mem_cons_of_mem _ member)
    exact (each x List.mem_cons_self).bind (rest.map (x :: ·))

/-! ## Little-endian integers -/

def readLe (source : Source S) (width : Nat) : StateT S Option Nat := do
  return readBytes (← source.read width)

theorem reads_readLe (delivers : Delivers source holds) (width value : Nat)
    (fits : value < 256 ^ width) :
    Reads holds (readLe source width) (leBytes width value) value := by
  have bytes := (delivers (leBytes width value)).map readBytes
  rwa [leBytes_length, readBytes_leBytes value fits] at bytes

/-! ## Bytes in blocks -/

/-- The next `count` bytes, at most `block` in one read. -/
def readBlocks (source : Source S) (block : Nat) : Nat → Nat → StateT S Option Bytes
  | 0, _ => return []
  | fuel + 1, count =>
    if count = 0 then return []
    else do
      let front ← source.read (min count block)
      let rest ← readBlocks source block fuel (count - min count block)
      return front ++ rest

theorem reads_readBlocks (delivers : Delivers source holds) {block : Nat} (positive : 0 < block)
    {fuel : Nat} : ∀ bytes : Bytes, bytes.length ≤ fuel →
      Reads holds (readBlocks source block fuel bytes.length) bytes bytes := by
  induction fuel with
  | zero =>
    intro bytes short
    have empty : bytes = [] := List.eq_nil_of_length_eq_zero (by omega)
    subst empty
    exact Reads.pure []
  | succ fuel ih =>
    intro bytes short
    rw [readBlocks]
    split
    · rename_i none
      rw [List.eq_nil_of_length_eq_zero none]
      exact Reads.pure []
    · rename_i some
      have front := delivers (bytes.take block)
      rw [List.length_take, Nat.min_comm] at front
      have rest := ih (bytes.drop block) (by rw [List.length_drop]; omega)
      have left : (bytes.drop block).length = bytes.length - min bytes.length block := by
        rw [List.length_drop]; omega
      rw [left] at rest
      have both : Reads holds (do
            let front ← source.read (min bytes.length block)
            let rest ← readBlocks source block fuel (bytes.length - min bytes.length block)
            return front ++ rest)
          (bytes.take block ++ bytes.drop block) (bytes.take block ++ bytes.drop block) :=
        front.bind (rest.map (bytes.take block ++ ·))
      rwa [List.take_append_drop] at both

end Rules

end SynergyLib.Stream
