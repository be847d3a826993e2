import Mathlib.NumberTheory.LucasPrimality

/-!
# Primality from a primitive root

A number is prime if some residue has order `p - 1`, which is checked at the prime factors of
`p - 1`.  Powers are taken by repeated squaring, so that the kernel can evaluate them.
-/

set_option autoImplicit false

namespace SynergyLib.Primality

/-- A power by repeated squaring, for an exponent of so many bits; `acc` collects the factors
of the bits that are set. -/
def powMod (p : ℕ) : ℕ → ℕ → ℕ → ℕ → ℕ
  | 0, _, _, acc => acc % p
  | bits + 1, base, exponent, acc =>
    powMod p bits (base * base % p) (exponent / 2)
      (if exponent % 2 = 1 then acc * base % p else acc)

theorem powMod_eq {p bits : ℕ} : ∀ base exponent acc, exponent < 2 ^ bits →
    powMod p bits base exponent acc = acc * base ^ exponent % p := by
  induction bits with
  | zero =>
    intro base exponent acc small
    rw [Nat.lt_one_iff.mp small, pow_zero, mul_one]
    rfl
  | succ bits ih =>
    intro base exponent acc small
    have half : exponent / 2 < 2 ^ bits := by
      rw [pow_succ] at small
      omega
    have square : (base * base % p) ^ (exponent / 2) ≡ base ^ (2 * (exponent / 2)) [MOD p] := by
      rw [pow_mul, pow_two]
      exact (Nat.mod_modEq _ _).pow _
    rw [powMod, ih _ _ _ half]
    rcases Nat.mod_two_eq_zero_or_one exponent with even | odd
    · have whole : 2 * (exponent / 2) = exponent := by omega
      rw [whole] at square
      rw [if_neg (by omega)]
      exact square.mul_left acc
    · have whole : exponent = 1 + 2 * (exponent / 2) := by omega
      rw [if_pos odd]
      conv_rhs => rw [whole, pow_add, pow_one, ← mul_assoc]
      exact (Nat.mod_modEq _ _).mul square

section Root
variable {p : ℕ}

theorem natCast_pow_eq_one_iff (large : 1 < p) {root exponent : ℕ} :
    (root : ZMod p) ^ exponent = 1 ↔ root ^ exponent % p = 1 := by
  rw [← Nat.cast_pow, ← Nat.cast_one, ZMod.natCast_eq_natCast_iff', Nat.mod_eq_of_lt large]

theorem prime_of_root (bits root : ℕ) (factors : List ℕ) (large : 1 < p) (small : p ≤ 2 ^ bits)
    (product : factors.prod = p - 1) (primes : ∀ q ∈ factors, q.Prime)
    (fermat : powMod p bits root (p - 1) 1 = 1)
    (least : ∀ q ∈ factors, powMod p bits root ((p - 1) / q) 1 ≠ 1) : p.Prime := by
  have fits : ∀ exponent, exponent ≤ p - 1 →
      powMod p bits root exponent 1 = root ^ exponent % p := by
    intro exponent bound
    rw [powMod_eq root exponent 1 (by omega), one_mul]
  refine lucas_primality p root ?_ fun q prime divides => ?_
  · rw [natCast_pow_eq_one_iff large, ← fits _ le_rfl]
    exact fermat
  · rw [← product] at divides
    obtain ⟨factor, member, dividesFactor⟩ := (Prime.dvd_prod_iff prime.prime).mp divides
    have same : q = factor :=
      (Nat.prime_dvd_prime_iff_eq prime (primes factor member)).mp dividesFactor
    rw [same, ne_eq, natCast_pow_eq_one_iff large, ← fits _ (Nat.div_le_self _ _)]
    exact least factor member

end Root

end SynergyLib.Primality
