import SynergyFormal.Lib.Truncate
import SynergyFormal.Primitives.Block

/-!
# Compact targets

`CBigNum::GetCompact`, the inverse of `SetCompact`: a size byte and the three leading
bytes of a number whose first byte has a clear top bit.  Reading back what was written
rounds a number down to those bytes.
-/

set_option autoImplicit false

namespace SynergyData.Compact

open SynergyLib.Truncate Block

/-- The bytes of the `mpi` form of a number, whose top bit is the sign. -/
def mpiSize (n : Nat) : Nat := if n = 0 then 0 else (Nat.log2 n + 1) / 8 + 1

def leadingBytes (n : Nat) : Nat :=
  if mpiSize n ≤ 3 then n * 2 ^ (8 * (3 - mpiSize n)) else n / 2 ^ (8 * (mpiSize n - 3))

def getCompact (n : Int) : UInt32 :=
  UInt32.ofNat (mpiSize n.natAbs * 2 ^ 24 + leadingBytes n.natAbs + if n < 0 then 2 ^ 23 else 0)

variable {n : Nat}

theorem mpiSize_pos (positive : 0 < n) : mpiSize n = (Nat.log2 n + 1) / 8 + 1 :=
  if_neg (by omega)

theorem mpiSize_mono {a b : Nat} (le : a ≤ b) : mpiSize a ≤ mpiSize b := by
  rcases Nat.eq_zero_or_pos a with rfl | positive
  · exact Nat.zero_le _
  · have logs : Nat.log2 a ≤ Nat.log2 b :=
      (Nat.le_log2 (by omega)).mpr ((Nat.log2_self_le (by omega)).trans le)
    rw [mpiSize_pos positive, mpiSize_pos (by omega)]
    omega

theorem lt_of_mpiSize (positive : 0 < n) : n < 2 ^ (8 * mpiSize n - 1) := by
  have bits : n < 2 ^ (Nat.log2 n + 1) := Nat.lt_log2_self
  refine lt_of_lt_of_le bits (Nat.pow_le_pow_right (by decide) ?_)
  rw [mpiSize_pos positive]
  omega

theorem mpiSize_lt (fits : n < 2 ^ 256) : mpiSize n < 256 := by
  rcases Nat.eq_zero_or_pos n with rfl | positive
  · decide
  · have bits := (Nat.log2_lt (by omega)).mpr fits
    rw [mpiSize_pos positive]
    omega

theorem mpiSize_round (n : Nat) :
    mpiSize (n / 2 ^ (8 * (mpiSize n - 3)) * 2 ^ (8 * (mpiSize n - 3))) = mpiSize n := by
  rcases Nat.eq_zero_or_pos n with rfl | positive
  · simp
  · have size := mpiSize_pos positive
    have below := Nat.div_mul_le_self n (2 ^ (8 * (mpiSize n - 3)))
    have leading : 2 ^ Nat.log2 n ≤ n / 2 ^ (8 * (mpiSize n - 3)) * 2 ^ (8 * (mpiSize n - 3)) := by
      obtain ⟨k, whole⟩ : 2 ^ (8 * (mpiSize n - 3)) ∣ 2 ^ Nat.log2 n :=
        Nat.pow_dvd_pow 2 (by omega)
      calc 2 ^ Nat.log2 n = k * 2 ^ (8 * (mpiSize n - 3)) := by rw [whole, Nat.mul_comm]
        _ ≤ n / 2 ^ (8 * (mpiSize n - 3)) * 2 ^ (8 * (mpiSize n - 3)) := by
            refine Nat.mul_le_mul_right _ ((Nat.le_div_iff_mul_le (Nat.two_pow_pos _)).mpr ?_)
            rw [Nat.mul_comm, ← whole]
            exact Nat.log2_self_le (by omega)
    have rounded := lt_of_lt_of_le (Nat.two_pow_pos (Nat.log2 n)) leading
    have upper := mpiSize_mono below
    have lower : Nat.log2 n ≤
        Nat.log2 (n / 2 ^ (8 * (mpiSize n - 3)) * 2 ^ (8 * (mpiSize n - 3))) :=
      (Nat.le_log2 (by omega)).mpr leading
    rw [mpiSize_pos rounded] at upper ⊢
    omega

def compactGrid : Grid where
  unit n := 2 ^ (8 * (mpiSize n - 3))
  unit_pos _ := Nat.two_pow_pos _
  unit_mono le := Nat.pow_le_pow_right (by decide) (by have := mpiSize_mono le; omega)
  unit_stable n := by rw [mpiSize_round]

theorem leadingBytes_lt (n : Nat) : leadingBytes n < 2 ^ 23 := by
  rcases Nat.eq_zero_or_pos n with rfl | positive
  · decide
  · have bound := lt_of_mpiSize positive
    have size := mpiSize_pos positive
    unfold leadingBytes
    split_ifs with small
    · calc n * 2 ^ (8 * (3 - mpiSize n))
          < 2 ^ (8 * mpiSize n - 1) * 2 ^ (8 * (3 - mpiSize n)) :=
            Nat.mul_lt_mul_of_pos_right bound (Nat.two_pow_pos _)
        _ = 2 ^ 23 := by rw [← Nat.pow_add]; congr 1; omega
    · refine Nat.div_lt_of_lt_mul (lt_of_lt_of_eq bound ?_)
      rw [← Nat.pow_add]
      congr 1
      omega

theorem setCompact_getCompact (fits : n < 2 ^ 256) :
    setCompact (getCompact n) = compactGrid.truncate n := by
  have word := leadingBytes_lt n
  have size := mpiSize_lt fits
  have written : (getCompact n).toNat = mpiSize n * 2 ^ 24 + leadingBytes n := by
    rw [getCompact, Int.natAbs_natCast, if_neg (by omega), UInt32.toNat_ofNat']
    omega
  have front : (getCompact n).toNat / 2 ^ 24 = mpiSize n := by rw [written]; omega
  have back : (getCompact n).toNat % 2 ^ 24 = leadingBytes n := by rw [written]; omega
  rw [setCompact]
  simp only [front, back]
  rw [if_neg (by omega), Nat.mod_eq_of_lt word]
  congr 1
  unfold leadingBytes Grid.truncate compactGrid
  dsimp only
  split_ifs with small
  · have unit : 8 * (mpiSize n - 3) = 0 := by omega
    rw [Nat.mul_div_cancel _ (Nat.two_pow_pos _), unit]
    simp
  · rfl

theorem truncate_pos (positive : 0 < n) : 0 < compactGrid.truncate n := by
  by_contra zero
  have none : compactGrid.truncate n = 0 := by omega
  have size := mpiSize_round n
  have rounded : n / 2 ^ (8 * (mpiSize n - 3)) * 2 ^ (8 * (mpiSize n - 3)) = 0 := none
  rw [rounded, mpiSize_pos positive] at size
  simp [mpiSize] at size

end SynergyData.Compact
