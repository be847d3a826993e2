import Mathlib.Algebra.Order.Ring.Int

/-!
# Signed 64-bit arithmetic inside its range

`Int64` wraps modulo 2^64.  As long as the exact result is representable the
machine operation computes it.
-/

set_option autoImplicit false

namespace SynergyLib.SignedWord

def Fits (n : Int) : Prop := -(2 ^ 63) ≤ n ∧ n < 2 ^ 63

theorem bmod_of_fits {n : Int} (fits : Fits n) : n.bmod (2 ^ 64) = n :=
  Int.bmod_eq_of_le (by have := fits.1; omega) (by have := fits.2; omega)

theorem toInt_add {a b : Int64} (fits : Fits (a.toInt + b.toInt)) :
    (a + b).toInt = a.toInt + b.toInt := by
  rw [Int64.toInt_add, bmod_of_fits fits]

theorem toInt_add_sub {a b c : Int64} (fits : Fits (a.toInt + b.toInt - c.toInt)) :
    (a + b - c).toInt = a.toInt + b.toInt - c.toInt := by
  rw [Int64.toInt_sub, Int64.toInt_add, Int.bmod_sub_bmod, bmod_of_fits fits]

theorem toInt_ofInt {n : Int} (fits : Fits n) : (Int64.ofInt n).toInt = n := by
  rw [Int64.toInt_ofInt]
  exact bmod_of_fits fits

end SynergyLib.SignedWord
