import SynergyFormal.Lib.BigEndian
import SynergyFormal.Lib.Primality
import Mathlib.GroupTheory.OrderOfElement
import Mathlib.Tactic.NormNum.Prime

/-!
# Stealth payments

`StealthSecret`, `StealthSecretSpend`, `StealthSharedToSecretSpend` and `SecretToPublicKey`
(`stealth.cpp`) over a group of prime order.  Sender and recipient come to the same shared
secret and the same public key, and the recipient to its secret key, which is `f + c` modulo
the order.  Both functions that compute this secret refuse it when its shortest encoding has
less than 32 bytes: the payment is then seen but cannot be spent.

A call that returns 1 is `none`; what it may have left in its output parameters is not used.
Allocations do not fail.
-/

set_option autoImplicit false

namespace SynergyWallet.Stealth

open SynergyLib
open Option Wire BigEndian Primality

/-! ## What OpenSSL computes -/

/-- The curve.  `point2oct` is given the form, compressed or not. -/
structure Curve (Point : Type) [AddCommGroup Point] where
  order : Nat
  prime : order.Prime
  order_lt : order < 256 ^ 32
  G : Point
  smul_G_eq_zero_iff : ∀ k : Nat, k • G = 0 ↔ order ∣ k
  point2oct : Bool → Point → Bytes
  bn2point : Nat → Option Point
  point2oct_zero : ∀ compressed, point2oct compressed 0 = [0]
  point2oct_compressed : ∀ P ≠ 0, ∃ tag x, tag ≠ 0 ∧ point2oct true P = tag :: x ∧ x.length = 32
  point2oct_uncompressed : ∀ P ≠ 0, (point2oct false P).length = 65
  bn2point_compressed : ∀ P ≠ 0, bn2point (toNum (point2oct true P)) = some P

/-- `ec_secret`. -/
structure EcSecret where
  e : Bytes
  size : e.length = 32
  deriving DecidableEq

def EcSecret.value (secret : EcSecret) : Nat := toNum secret.e

theorem EcSecret.value_injective : Function.Injective EcSecret.value := by
  intro a b same
  obtain ⟨e, size⟩ := a
  obtain ⟨e', size'⟩ := b
  have bytes : e = e' := toNum_injective (size.trans size'.symm) same
  subst bytes
  rfl

structure Crypto (Point : Type) [AddCommGroup Point] extends Curve Point where
  sha256 : Bytes → EcSecret

section Functions
variable {Point : Type} [AddCommGroup Point]

/-- `EC_POINT_point2bn` and `BN_bn2bin` into a vector of `ec_compressed_size` bytes. -/
def pointOut (curve : Curve Point) (P : Point) : Option Bytes :=
  let bnOut := toNum (curve.point2oct true P)
  if numBytes bnOut ≠ 33 then none else some (fromNum bnOut)

/-- `BN_bin2bn` and `EC_POINT_bn2point`. -/
def pointIn (curve : Curve Point) (bytes : Bytes) : Option Point :=
  curve.bn2point (toNum bytes)

def secretToPublicKey (curve : Curve Point) (secret : EcSecret) : Option Bytes :=
  pointOut curve (secret.value • curve.G)

/-- The shared secret and the public key of the payment. -/
def stealthSecret (crypto : Crypto Point) (secret : EcSecret) (pubkey pkSpend : Bytes) :
    Option (EcSecret × Bytes) := do
  let bnEphem := secret.value
  let Q ← pointIn crypto.toCurve pubkey
  let vchOutQ ← pointOut crypto.toCurve (bnEphem • Q)
  let sharedSOut := crypto.sha256 vchOutQ
  let bnc := sharedSOut.value
  let C := bnc • crypto.G
  let R ← pointIn crypto.toCurve pkSpend
  let pkOut ← pointOut crypto.toCurve (R + C)
  return (sharedSOut, pkOut)

/-- `BN_bn2bin` into a secret; zero and numbers of another length are errors. -/
def secretOut (bnSpend : Nat) : Option EcSecret :=
  if bnSpend = 0 then none
  else if exact : numBytes bnSpend = 32 then
    some ⟨fromNum bnSpend, by rw [fromNum_length, exact]⟩
  else none

/-- The last part of both functions that compute a secret key, from `BN_mod_add` on. -/
def addSecrets (curve : Curve Point) (bnSpend bnc : Nat) : Option EcSecret :=
  secretOut ((bnSpend + bnc) % curve.order)

def stealthSharedToSecretSpend (crypto : Crypto Point) (sharedS spendSecret : EcSecret) :
    Option EcSecret :=
  addSecrets crypto.toCurve spendSecret.value sharedS.value

def stealthSecretSpend (crypto : Crypto Point) (scanSecret : EcSecret) (ephemPubkey : Bytes)
    (spendSecret : EcSecret) : Option EcSecret := do
  let P ← pointIn crypto.toCurve ephemPubkey
  let vchOutP ← pointOut crypto.toCurve (scanSecret.value • P)
  let hash1 := crypto.sha256 vchOutP
  addSecrets crypto.toCurve spendSecret.value hash1.value

/-! ## Points as bytes -/

section Points
variable (curve : Curve Point)

variable {P : Point} {k : Nat}

theorem pointOut_of_ne_zero (nonzero : P ≠ 0) :
    pointOut curve P = some (curve.point2oct true P) := by
  obtain ⟨tag, x, tagNonzero, bytes, size⟩ := curve.point2oct_compressed P nonzero
  have exact : numBytes (toNum (tag :: x)) = 33 := by rw [numBytes_toNum_cons tagNonzero, size]
  rw [pointOut, bytes, if_neg (not_not.mpr exact), fromNum_toNum]
  rw [exact, List.length_cons, size]

theorem pointOut_zero : pointOut curve 0 = none := by
  rw [pointOut, curve.point2oct_zero]
  decide

theorem pointIn_point2oct (nonzero : P ≠ 0) : pointIn curve (curve.point2oct true P) = some P :=
  curve.bn2point_compressed P nonzero

theorem pointOut_eq_some_iff {bytes : Bytes} :
    pointOut curve P = some bytes ↔ P ≠ 0 ∧ bytes = curve.point2oct true P := by
  by_cases zero : P = 0
  · rw [zero, pointOut_zero]
    exact iff_of_false (by simp) fun both => both.1 rfl
  · rw [pointOut_of_ne_zero curve zero, some.injEq]
    constructor
    · intro same
      exact ⟨zero, same.symm⟩
    · intro both
      exact both.2.symm

theorem smul_G_ne_zero (positive : 0 < k) (small : k < curve.order) : k • curve.G ≠ 0 := by
  rw [ne_eq, curve.smul_G_eq_zero_iff]
  exact Nat.not_dvd_of_pos_of_lt positive small

theorem smul_G_mod : (k % curve.order) • curve.G = k • curve.G := by
  have period : curve.order • curve.G = 0 := (curve.smul_G_eq_zero_iff _).mpr (dvd_refl _)
  conv_rhs => rw [← Nat.mod_add_div k curve.order, add_nsmul, mul_nsmul, period, nsmul_zero,
    add_zero]

end Points

/-! ## The secret key -/

variable {bnSpend bnc : Nat} {secret : EcSecret} {curve : Curve Point}

theorem secretOut_eq_some_iff (small : bnSpend < 256 ^ 32) :
    secretOut bnSpend = some secret ↔ 256 ^ 31 ≤ bnSpend ∧ secret.value = bnSpend := by
  have width := numBytes_eq_succ_iff bnSpend 31
  unfold secretOut
  split_ifs with zero exact
  · refine iff_of_false (by simp) fun both => ?_
    rw [zero] at both
    exact absurd both.1 (by decide)
  · rw [some.injEq]
    constructor
    · intro same
      rw [← same]
      exact ⟨(width.mp exact).1, toNum_fromNum⟩
    · intro both
      apply EcSecret.value_injective
      rw [both.2]
      exact toNum_fromNum
  · exact iff_of_false (by simp) fun both => exact (width.mpr ⟨both.1, small⟩)

theorem sum_lt {sum : Nat} : sum % curve.order < 256 ^ 32 :=
  (Nat.mod_lt _ curve.prime.pos).trans curve.order_lt

theorem addSecrets_eq_some_iff (curve : Curve Point) (bnSpend bnc : Nat) (secret : EcSecret) :
    addSecrets curve bnSpend bnc = some secret ↔
      256 ^ 31 ≤ (bnSpend + bnc) % curve.order ∧
        secret.value = (bnSpend + bnc) % curve.order :=
  secretOut_eq_some_iff sum_lt

theorem addSecrets_isSome_iff : (∃ secret, addSecrets curve bnSpend bnc = some secret) ↔
      256 ^ 31 ≤ (bnSpend + bnc) % curve.order := by
  constructor
  · intro found
    obtain ⟨secret, computed⟩ := found
    exact ((addSecrets_eq_some_iff curve bnSpend bnc secret).mp computed).1
  · intro large
    refine ⟨⟨padded 32 ((bnSpend + bnc) % curve.order), padded_length sum_lt⟩, ?_⟩
    rw [addSecrets_eq_some_iff]
    exact ⟨large, toNum_padded⟩

theorem addSecrets_point (computed : addSecrets curve bnSpend bnc = some secret) :
    secret.value • curve.G = bnSpend • curve.G + bnc • curve.G := by
  rw [((addSecrets_eq_some_iff curve bnSpend bnc secret).mp computed).2, smul_G_mod, add_nsmul]

/-! ## The two sides of a payment -/

section Payment
variable {crypto : Crypto Point} {e d f : EcSecret}

/-- `H(e d G)`. -/
def sharedSecret (crypto : Crypto Point) (e d : EcSecret) : EcSecret :=
  crypto.sha256 (crypto.point2oct true ((e.value * d.value) • crypto.G))

/-- A secret below the order, other than zero. -/
def ValidScalar (crypto : Crypto Point) (secret : EcSecret) : Prop :=
  0 < secret.value ∧ secret.value < crypto.order

theorem ValidScalar.publicKey (valid : ValidScalar crypto e) : secretToPublicKey crypto.toCurve e =
      some (crypto.point2oct true (e.value • crypto.G)) :=
  pointOut_of_ne_zero _ (smul_G_ne_zero _ valid.1 valid.2)

theorem pointOut_exchange (validE : ValidScalar crypto e) (validD : ValidScalar crypto d) :
    pointOut crypto.toCurve (e.value • d.value • crypto.G) =
      some (crypto.point2oct true ((e.value * d.value) • crypto.G)) := by
  rw [← mul_nsmul']
  apply pointOut_of_ne_zero
  rw [ne_eq, crypto.smul_G_eq_zero_iff, crypto.prime.dvd_mul, not_or]
  exact ⟨Nat.not_dvd_of_pos_of_lt validE.1 validE.2, Nat.not_dvd_of_pos_of_lt validD.1 validD.2⟩

theorem sharedSecret_comm : sharedSecret crypto e d = sharedSecret crypto d e := by
  rw [sharedSecret, sharedSecret, Nat.mul_comm]

theorem stealthSecret_exchange (validE : ValidScalar crypto e) (validD : ValidScalar crypto d)
    (validF : ValidScalar crypto f)
    (nonzero : (f.value + (sharedSecret crypto e d).value) % crypto.order ≠ 0) :
    stealthSecret crypto e (crypto.point2oct true (d.value • crypto.G))
        (crypto.point2oct true (f.value • crypto.G)) =
      some (sharedSecret crypto e d, crypto.point2oct true
        (f.value • crypto.G + (sharedSecret crypto e d).value • crypto.G)) := by
  have sum : f.value • crypto.G + (sharedSecret crypto e d).value • crypto.G ≠ 0 := by
    rw [← add_nsmul, ne_eq, crypto.smul_G_eq_zero_iff]
    intro divides
    exact nonzero (Nat.mod_eq_zero_of_dvd divides)
  have shared : crypto.sha256 (crypto.point2oct true ((e.value * d.value) • crypto.G)) =
    sharedSecret crypto e d := rfl
  simp only [stealthSecret, pointIn_point2oct _ (smul_G_ne_zero _ validD.1 validD.2),
    pointOut_exchange validE validD, pointIn_point2oct _ (smul_G_ne_zero _ validF.1 validF.2),
    shared, pointOut_of_ne_zero _ sum, bind_eq_bind, bind_some, Option.pure_def]

theorem stealthSecretSpend_exchange (validE : ValidScalar crypto e)
    (validD : ValidScalar crypto d) :
    stealthSecretSpend crypto d (crypto.point2oct true (e.value • crypto.G)) f =
      stealthSharedToSecretSpend crypto (sharedSecret crypto e d) f := by
  have shared : crypto.sha256 (crypto.point2oct true ((d.value * e.value) • crypto.G)) =
    sharedSecret crypto e d := sharedSecret_comm
  simp only [stealthSecretSpend, pointIn_point2oct _ (smul_G_ne_zero _ validE.1 validE.2),
    pointOut_exchange validD validE, shared, bind_eq_bind, bind_some,
    stealthSharedToSecretSpend]

/-- Both sides agree on the payment and the recipient gets its secret key. -/
def Spendable (crypto : Crypto Point) (e d f : EcSecret) (pkEphem pkScan pkSpend : Bytes) :
    Prop :=
  ∃ sharedS pkOut secret,
    stealthSecret crypto e pkScan pkSpend = some (sharedS, pkOut) ∧
    stealthSecret crypto d pkEphem pkSpend = some (sharedS, pkOut) ∧
    stealthSharedToSecretSpend crypto sharedS f = some secret ∧
    stealthSecretSpend crypto d pkEphem f = some secret ∧
    secretToPublicKey crypto.toCurve secret = some pkOut

/-- A payment can be spent exactly if `f + c` modulo the order needs all of its 32 bytes. -/
theorem spendable_iff (crypto : Crypto Point) {e d f : EcSecret} (validE : ValidScalar crypto e)
    (validD : ValidScalar crypto d) (validF : ValidScalar crypto f) {pkEphem pkScan pkSpend : Bytes}
    (ephem : secretToPublicKey crypto.toCurve e = some pkEphem)
    (scan : secretToPublicKey crypto.toCurve d = some pkScan)
    (spend : secretToPublicKey crypto.toCurve f = some pkSpend)
    (nonzero : (f.value + (sharedSecret crypto e d).value) % crypto.order ≠ 0) :
    Spendable crypto e d f pkEphem pkScan pkSpend ↔
      256 ^ 31 ≤ (f.value + (sharedSecret crypto e d).value) % crypto.order := by
  rw [validE.publicKey, some.injEq] at ephem
  rw [validD.publicKey, some.injEq] at scan
  rw [validF.publicKey, some.injEq] at spend
  rw [← ephem, ← scan, ← spend]
  have sender := stealthSecret_exchange validE validD validF nonzero
  have recipient := stealthSecret_exchange validD validE validF
    (by rw [sharedSecret_comm]; exact nonzero)
  rw [sharedSecret_comm] at recipient
  rw [← addSecrets_isSome_iff]
  constructor
  · intro spendable
    obtain ⟨sharedS, pkOut, secret, sent, -, computed, -⟩ := spendable
    rw [sender, some.injEq, Prod.mk.injEq] at sent
    rw [← sent.1] at computed
    exact ⟨secret, computed⟩
  · intro found
    obtain ⟨secret, computed⟩ := found
    refine ⟨_, _, secret, sender, recipient, computed, ?_, ?_⟩
    · rw [stealthSecretSpend_exchange validE validD]
      exact computed
    · rw [secretToPublicKey, addSecrets_point computed]
      apply pointOut_of_ne_zero
      rw [← add_nsmul, ne_eq, crypto.smul_G_eq_zero_iff]
      intro divides
      exact nonzero (Nat.mod_eq_zero_of_dvd divides)

end Payment

end Functions

/-! ## The order of secp256k1 -/

def secp256k1Order : Nat :=
  0xFFFFFFFFFFFFFFFFFFFFFFFFFFFFFFFEBAAEDCE6AF48A03BBFD25E8CD0364141

theorem prime_297159362677 : Nat.Prime 297159362677 :=
  prime_of_root 39 2 [2, 2, 3, 3, 11, 461, 1627771] (by decide) (by decide) (by decide)
    (by norm_num) (by decide +kernel) (by decide +kernel)

theorem prime_545358713 : Nat.Prime 545358713 :=
  prime_of_root 30 5 [2, 2, 2, 41, 59, 28181] (by decide) (by decide) (by decide)
    (by norm_num) (by decide +kernel) (by decide +kernel)

theorem prime_29047611873442575647497758179 : Nat.Prime 29047611873442575647497758179 :=
  prime_of_root 95 2 [2, 293, 305873, 545358713, 297159362677] (by decide) (by decide) (by decide)
    (by simp only [List.forall_mem_cons, prime_545358713, prime_297159362677]; norm_num)
    (by decide +kernel) (by decide +kernel)

theorem prime_341948486974166000522343609283189 : Nat.Prime 341948486974166000522343609283189 :=
  prime_of_root 109 2 [2, 2, 3, 3, 3, 109, 29047611873442575647497758179] (by decide)
    (by decide) (by decide)
    (by simp only [List.forall_mem_cons, prime_29047611873442575647497758179]; norm_num)
    (by decide +kernel) (by decide +kernel)

theorem prime_44706919 : Nat.Prime 44706919 :=
  prime_of_root 26 6 [2, 3, 797, 9349] (by decide) (by decide) (by decide)
    (by norm_num) (by decide +kernel) (by decide +kernel)

theorem prime_174723607534414371449 : Nat.Prime 174723607534414371449 :=
  prime_of_root 68 3 [2, 2, 2, 17, 59, 4051, 120233, 44706919] (by decide) (by decide)
    (by decide) (by simp only [List.forall_mem_cons, prime_44706919]; norm_num)
    (by decide +kernel) (by decide +kernel)

theorem prime_107361793816595537 : Nat.Prime 107361793816595537 :=
  prime_of_root 57 3 [2, 2, 2, 2, 16699, 85831, 4681609] (by decide) (by decide) (by decide)
    (by norm_num) (by decide +kernel) (by decide +kernel)

theorem secp256k1Order_prime : secp256k1Order.Prime :=
  prime_of_root 256 7 [2, 2, 2, 2, 2, 2, 3, 149, 631, 107361793816595537, 174723607534414371449,
      341948486974166000522343609283189] (by decide) (by decide) (by decide)
    (by
      simp only [List.forall_mem_cons, prime_107361793816595537, prime_174723607534414371449,
        prime_341948486974166000522343609283189]
      norm_num)
    (by decide +kernel) (by decide +kernel)

/-! ## A payment that is lost -/

def residueOct (compressed : Bool) (P : ZMod secp256k1Order) : Bytes :=
  if P = 0 then [0] else if compressed then 2 :: padded 32 P.val else 4 :: padded 64 P.val

def residueIn (bn : Nat) : Option (ZMod secp256k1Order) :=
  if 2 * 256 ^ 32 ≤ bn then some ((bn - 2 * 256 ^ 32 : Nat) : ZMod secp256k1Order) else none

instance : NeZero secp256k1Order := ⟨secp256k1Order_prime.ne_zero⟩

variable {P : ZMod secp256k1Order}

theorem residue_lt : P.val < 256 ^ 32 :=
  (ZMod.val_lt P).trans (by decide)

theorem residueOct_compressed (nonzero : P ≠ 0) : residueOct true P = 2 :: padded 32 P.val := by
  rw [residueOct, if_neg nonzero, if_pos rfl]

/-- The residues modulo the order of secp256k1, which are its multiples of the generator,
with an encoding of the same lengths. -/
def residueCurve : Curve (ZMod secp256k1Order) where
  order := secp256k1Order
  prime := secp256k1Order_prime
  order_lt := by decide
  G := 1
  smul_G_eq_zero_iff k := by
    rw [nsmul_one]
    exact ZMod.natCast_eq_zero_iff k secp256k1Order
  point2oct := residueOct
  bn2point := residueIn
  point2oct_zero compressed := if_pos rfl
  point2oct_compressed P nonzero :=
    ⟨2, padded 32 P.val, by decide, residueOct_compressed nonzero, padded_length residue_lt⟩
  point2oct_uncompressed P nonzero := by
    have wide : (padded 64 P.val).length = 64 :=
      padded_length (residue_lt.trans (Nat.pow_lt_pow_right (by decide) (by decide)))
    rw [residueOct, if_neg nonzero, if_neg (by decide), List.length_cons, wide]
  bn2point_compressed P nonzero := by
    have number : toNum (2 :: padded 32 P.val) = 2 * 256 ^ 32 + P.val := by
      rw [toNum_cons, padded_length residue_lt, toNum_padded]
      rfl
    rw [residueOct_compressed nonzero, number, residueIn, if_pos (Nat.le_add_right _ _),
      Nat.add_sub_cancel_left, ZMod.natCast_zmod_val]

/-- The secret with the given value. -/
def smallSecret (byte : UInt8) : EcSecret := ⟨List.replicate 31 0 ++ [byte], by simp⟩

/-- A hash function with one value. -/
def constantHash (hash : EcSecret) : Crypto (ZMod secp256k1Order) :=
  { residueCurve with sha256 := fun _ => hash }

theorem smallSecret_valid (hash : EcSecret) : ValidScalar (constantHash hash) (smallSecret 1) :=
  have small : (smallSecret 1).value < secp256k1Order := by decide +kernel
  ⟨by decide, small⟩

/-- The key of the payment is 2, which has a short encoding. -/
theorem payment_lost :
    ∃ crypto : Crypto (ZMod secp256k1Order), ∃ e d f : EcSecret, ∃ pkEphem pkScan pkSpend,
      ValidScalar crypto e ∧ ValidScalar crypto d ∧ ValidScalar crypto f ∧
      secretToPublicKey crypto.toCurve e = some pkEphem ∧
      secretToPublicKey crypto.toCurve d = some pkScan ∧
      secretToPublicKey crypto.toCurve f = some pkSpend ∧
      ValidScalar crypto (sharedSecret crypto e d) ∧
      (f.value + (sharedSecret crypto e d).value) % crypto.order ≠ 0 ∧
      ¬ Spendable crypto e d f pkEphem pkScan pkSpend := by
  have valid := smallSecret_valid (smallSecret 1)
  refine ⟨constantHash (smallSecret 1), smallSecret 1, smallSecret 1, smallSecret 1, _, _, _,
    valid, valid, valid, valid.publicKey, valid.publicKey, valid.publicKey, valid, ?_, ?_⟩
  · decide +kernel
  · intro spendable
    obtain ⟨sharedS, pkOut, secret, -, -, -, computed, -⟩ := spendable
    unfold stealthSecretSpend at computed
    obtain ⟨P, -, computed⟩ := bind_eq_some_iff.mp computed
    obtain ⟨vchOutP, -, computed⟩ := bind_eq_some_iff.mp computed
    have large : 256 ^ 31 ≤ ((smallSecret 1).value + (smallSecret 1).value) % secp256k1Order :=
      ((addSecrets_eq_some_iff _ _ _ secret).mp computed).1
    exact absurd large (by decide +kernel)

/-- The shared secret `256 ^ 31`. -/
def largeSecret : EcSecret := ⟨1 :: List.replicate 31 0, by simp⟩

theorem payment_spendable :
    ∃ pk, secretToPublicKey (constantHash largeSecret).toCurve (smallSecret 1) = some pk ∧
      Spendable (constantHash largeSecret) (smallSecret 1) (smallSecret 1) (smallSecret 1)
        pk pk pk := by
  have valid := smallSecret_valid largeSecret
  refine ⟨_, valid.publicKey, ?_⟩
  apply (spendable_iff (constantHash largeSecret) valid valid valid valid.publicKey valid.publicKey
    valid.publicKey ?_).mpr
  · decide +kernel
  · decide +kernel

end SynergyWallet.Stealth
