import SynergyFormal.Lib.Wire

/-!
# Big-endian numbers

A byte string is read with its most significant byte first.  The shortest string of a number
has no leading zero; a string of fixed width has as many as it needs, and is determined by
its number.
-/

set_option autoImplicit false

namespace SynergyLib.BigEndian

open Wire

def toNum (bytes : Bytes) : Nat := readBytes bytes.reverse

def numBytes (value : Nat) : Nat := (Nat.digits 256 value).length

/-- The shortest string of a number; that of zero is empty. -/
def fromNum (value : Nat) : Bytes := (minimalBytes value).reverse

/-- A string of a given width, filled up with zeros in front. -/
def padded (width value : Nat) : Bytes :=
  List.replicate (width - numBytes value) 0 ++ fromNum value

variable {value width : Nat} {byte : UInt8} {bytes : Bytes}

@[simp] theorem fromNum_length : (fromNum value).length = numBytes value := by
  rw [fromNum, List.length_reverse, minimalBytes, List.length_map, numBytes]

@[simp] theorem toNum_fromNum : toNum (fromNum value) = value := by
  rw [toNum, fromNum, List.reverse_reverse, readBytes_minimalBytes]

theorem toNum_append {front back : Bytes} :
    toNum (front ++ back) = toNum front * 256 ^ back.length + toNum back := by
  simp only [toNum, readBytes, List.reverse_append, List.map_append, Nat.ofDigits_append,
    List.length_map, List.length_reverse]
  ring

theorem toNum_singleton : toNum [byte] = byte.toNat := by simp [toNum, readBytes]

theorem toNum_cons : toNum (byte :: bytes) = byte.toNat * 256 ^ bytes.length + toNum bytes := by
  rw [← toNum_singleton, ← toNum_append]
  rfl

theorem toNum_lt (bytes : Bytes) : toNum bytes < 256 ^ bytes.length := by
  induction bytes with
  | nil => decide
  | cons byte bytes ih =>
    have small : byte.toNat ≤ 255 := Nat.le_of_lt_succ byte.toNat_lt
    have scaled := Nat.mul_le_mul_right (256 ^ bytes.length) small
    rw [toNum_cons, List.length_cons, pow_succ]
    omega

theorem toNum_zeros {count : Nat} : toNum (List.replicate count 0) = 0 := by
  induction count with
  | zero => rfl
  | succ count ih =>
    rw [List.replicate_succ, toNum_cons, ih]
    exact Nat.zero_mul _

theorem toNum_injective {first second : Bytes} (sameLength : first.length = second.length)
    (sameValue : toNum first = toNum second) : first = second := by
  induction first generalizing second with
  | nil => exact (List.length_eq_zero_iff.mp sameLength.symm).symm
  | cons byte first ih =>
    cases second with
    | nil => exact absurd sameLength (Nat.succ_ne_zero _)
    | cons other second =>
      have lengths : first.length = second.length := Nat.succ.inj sameLength
      rw [toNum_cons, toNum_cons, lengths] at sameValue
      have firstSmall := toNum_lt first
      have secondSmall := toNum_lt second
      rw [lengths] at firstSmall
      have positive : 0 < 256 ^ second.length := Nat.pow_pos (by decide)
      -- quotient and remainder by the weight of the leading byte
      have leading : byte.toNat = other.toNat := by
        have quotient := congrArg (· / 256 ^ second.length) sameValue
        simpa [Nat.add_div_of_dvd_right (Dvd.intro_left _ rfl), positive,
          Nat.div_eq_of_lt firstSmall, Nat.div_eq_of_lt secondSmall] using quotient
      rw [leading] at sameValue
      rw [UInt8.toNat_inj.mp leading, ih lengths (Nat.add_left_cancel sameValue)]

/-! ## Lengths -/

theorem numBytes_le_iff (value width : Nat) : numBytes value ≤ width ↔ value < 256 ^ width :=
  Nat.digits_length_le_iff (by decide) value

theorem numBytes_eq_succ_iff (value width : Nat) :
    numBytes value = width + 1 ↔ 256 ^ width ≤ value ∧ value < 256 ^ (width + 1) := by
  have upper := numBytes_le_iff value (width + 1)
  have lower := numBytes_le_iff value width
  omega

theorem numBytes_toNum_cons (nonzero : byte ≠ 0) :
    numBytes (toNum (byte :: bytes)) = bytes.length + 1 := by
  rw [numBytes_eq_succ_iff]
  refine ⟨?_, toNum_lt (byte :: bytes)⟩
  have positive : 1 ≤ byte.toNat := by
    rw [Nat.one_le_iff_ne_zero]
    intro zero
    exact nonzero (UInt8.toNat_inj.mp zero)
  have scaled := Nat.mul_le_mul_right (256 ^ bytes.length) positive
  rw [toNum_cons]
  omega

theorem padded_length (small : value < 256 ^ width) : (padded width value).length = width := by
  have short := (numBytes_le_iff value width).mpr small
  rw [padded, List.length_append, List.length_replicate, fromNum_length]
  omega

theorem toNum_padded : toNum (padded width value) = value := by
  rw [padded, toNum_append, toNum_zeros, toNum_fromNum, Nat.zero_mul, Nat.zero_add]

theorem fromNum_toNum (exact : numBytes (toNum bytes) = bytes.length) :
    fromNum (toNum bytes) = bytes := by
  apply toNum_injective
  · rw [fromNum_length, exact]
  · exact toNum_fromNum

end SynergyLib.BigEndian
