import SynergyFormal.Lib.BigEndian

/-!
# Copied keys

`CKey` (`key.cpp`) keeps whether its public key is compressed twice, in the conversion form of
the OpenSSL key and in `fCompressedPubKey`.  Copies take over the first only.
-/

set_option autoImplicit false

namespace SynergyData.KeyCopies

open SynergyLib
open Wire BigEndian

/-- What OpenSSL computes. -/
structure Ecdsa (Point Hash : Type) where
  /-- `EC_KEY_regenerate_key`. -/
  publicPoint : Nat → Point
  /-- `i2o_ECPublicKey` with a conversion form. -/
  point2oct : Bool → Point → Bytes
  /-- `ECDSA_SIG_recover_key_GFp`. -/
  recover : (check : Bool) → Nat × Nat → Hash → Nat → Option Point
  unchecked : ∀ sig hash recid point, recover true sig hash recid = some point →
    recover false sig hash recid = some point

structure EcKey (Point : Type) where
  priv : Option Nat
  point : Option Point
  compressed : Bool
deriving DecidableEq

structure CKey (Point : Type) where
  pkey : EcKey Point
  fSet : Bool
  fCompressedPubKey : Bool
deriving DecidableEq

section Key
variable {Point Hash : Type} (ecdsa : Ecdsa Point Hash)

/-- `CKey()`. -/
def newKey : CKey Point := ⟨⟨none, none, false⟩, false, false⟩

def setCompressedPubKey (key : CKey Point) : CKey Point :=
  { key with pkey := { key.pkey with compressed := true }, fCompressedPubKey := true }

def setSecret (key : CKey Point) (vchSecret : Bytes) (fCompressed : Bool) : Option (CKey Point) :=
  if vchSecret.length ≠ 32 then none
  else
    let n := toNum vchSecret
    let key : CKey Point :=
      { key with pkey := ⟨some n, some (ecdsa.publicPoint n), false⟩, fSet := true }
    some (if fCompressed || key.fCompressedPubKey then setCompressedPubKey key else key)

def getSecret (key : CKey Point) : Option (Bytes × Bool) :=
  key.pkey.priv.map fun n => (padded 32 n, key.fCompressedPubKey)

def getPubKey (key : CKey Point) : Option Bytes :=
  key.pkey.point.map (ecdsa.point2oct key.pkey.compressed)

/-- With the signature `ECDSA_do_sign` made. -/
def signCompact (key : CKey Point) (hash : Hash) (sig : Nat × Nat) : Option Bytes :=
  if sig.1 < 256 ^ 32 ∧ sig.2 < 256 ^ 32 then
    ((List.range 4).find? fun i => (ecdsa.recover true sig hash i).any fun point =>
      some (ecdsa.point2oct key.fCompressedPubKey point) = getPubKey ecdsa key).map fun nRecId =>
        UInt8.ofNat (nRecId + 27 + if key.fCompressedPubKey then 4 else 0) ::
          (padded 32 sig.1 ++ padded 32 sig.2)
  else none

def setCompactSignature (key : CKey Point) (hash : Hash) (vchSig : Bytes) : Option (CKey Point) :=
  match vchSig with
  | [] => none
  | nV :: rest =>
    if rest.length ≠ 64 ∨ nV < 27 ∨ 35 ≤ nV then none
    else
      let fresh : CKey Point := { key with pkey := ⟨none, none, false⟩ }
      let (key, nV) := if 31 ≤ nV then (setCompressedPubKey fresh, nV - 4) else (fresh, nV)
      (ecdsa.recover false (toNum (rest.take 32), toNum (rest.drop 32)) hash (nV - 27).toNat).map
        fun point => { key with pkey := { key.pkey with point := some point }, fSet := true }

def verifyCompact (key : CKey Point) (hash : Hash) (vchSig : Bytes) : Bool :=
  (setCompactSignature ecdsa newKey hash vchSig).any fun recovered =>
    getPubKey ecdsa key = getPubKey ecdsa recovered

/-! ## Copies -/

/-- The copy constructor leaves `fCompressedPubKey` as the memory was. -/
def copyConstruct (b : CKey Point) (memory : Bool) : CKey Point := ⟨b.pkey, b.fSet, memory⟩

/-- `operator=`. -/
def assign (key b : CKey Point) : CKey Point := { key with pkey := b.pkey, fSet := b.fSet }

/-- What a key is copied into: new memory, or a key that is there already. -/
inductive Target (Point : Type)
  | memory (fCompressedPubKey : Bool)
  | used (key : CKey Point)

/-- The flag that stands there before the copy. -/
def Target.flag : Target Point → Bool
  | memory fCompressedPubKey => fCompressedPubKey
  | used key => key.fCompressedPubKey

def copyTo (b : CKey Point) : Target Point → CKey Point
  | .memory fCompressedPubKey => copyConstruct b fCompressedPubKey
  | .used key => assign key b

/-- The last of a sequence of copies, each of the one before. -/
def copied (key : CKey Point) (targets : List (Target Point)) : CKey Point :=
  targets.foldl copyTo key

theorem copyTo_eq (b : CKey Point) (target : Target Point) :
    copyTo b target = ⟨b.pkey, b.fSet, target.flag⟩ := by
  cases target <;> rfl

theorem copied_eq (key : CKey Point) (targets : List (Target Point)) :
    copied key targets =
      ⟨key.pkey, key.fSet, (targets.getLast?.map Target.flag).getD key.fCompressedPubKey⟩ := by
  induction targets using List.reverseRecOn with
  | nil => rfl
  | append_singleton targets last ih =>
    rw [copied, List.foldl_append] at *
    rw [ih, List.foldl_cons, List.foldl_nil, copyTo_eq, List.getLast?_concat, Option.map_some,
      Option.getD_some]

theorem setCompactSignature_header {hash : Hash} {sig : Nat × Nat} {nRecId : Nat} {point : Point}
    (low : nRecId < 4) (small : sig.1 < 256 ^ 32 ∧ sig.2 < 256 ^ 32)
    (recovered : ecdsa.recover true sig hash nRecId = some point) (compressed : Bool) :
    setCompactSignature ecdsa newKey hash
        (UInt8.ofNat (nRecId + 27 + if compressed then 4 else 0) ::
          (padded 32 sig.1 ++ padded 32 sig.2)) =
      some ⟨⟨none, some point, compressed⟩, true, compressed⟩ := by
  have first := padded_length small.1
  have length : (padded 32 sig.1 ++ padded 32 sig.2).length = 64 := by
    rw [List.length_append, first, padded_length small.2]
  have read : (toNum ((padded 32 sig.1 ++ padded 32 sig.2).take 32),
      toNum ((padded 32 sig.1 ++ padded 32 sig.2).drop 32)) = sig := by
    rw [List.take_left' first, List.drop_left' first, toNum_padded, toNum_padded]
  have found := ecdsa.unchecked sig hash nRecId point recovered
  rw [setCompactSignature, length, read]
  interval_cases nRecId <;> cases compressed <;> exact congrArg (Option.map _) found

/-- A compact signature of one key is verified by every key with the same OpenSSL key. -/
theorem verifyCompact_of_signCompact {signer verifier : CKey Point} {hash : Hash}
    {sig : Nat × Nat} {vchSig : Bytes} (same : signer.pkey = verifier.pkey)
    (signed : signCompact ecdsa signer hash sig = some vchSig) :
    verifyCompact ecdsa verifier hash vchSig = true := by
  unfold signCompact at signed
  split at signed
  case isFalse => cases signed
  case isTrue small =>
    obtain ⟨nRecId, found, rfl⟩ := Option.map_eq_some_iff.mp signed
    have low : nRecId < 4 := List.mem_range.mp (List.mem_of_find?_eq_some found)
    have own := List.find?_some found
    cases recovered : ecdsa.recover true sig hash nRecId with
    | none => simp [recovered] at own
    | some point =>
      rw [recovered, Option.any_some, decide_eq_true_eq, getPubKey, same] at own
      rw [verifyCompact, setCompactSignature_header ecdsa low small recovered]
      exact decide_eq_true own.symm

/-- The copy behaves like the original. -/
structure BehavesLike (copy key : CKey Point) : Prop where
  getPubKey : getPubKey ecdsa copy = getPubKey ecdsa key
  getSecret : getSecret copy = getSecret key
  verified : ∀ hash sig vchSig, signCompact ecdsa copy hash sig = some vchSig →
    verifyCompact ecdsa key hash vchSig = true
  verifies : ∀ hash sig vchSig, signCompact ecdsa key hash sig = some vchSig →
    verifyCompact ecdsa copy hash vchSig = true

theorem behavesLike_iff {key copy : CKey Point} {n : Nat} (secret : key.pkey.priv = some n)
    (same : copy.pkey = key.pkey) :
    BehavesLike ecdsa copy key ↔ copy.fCompressedPubKey = key.fCompressedPubKey := by
  constructor
  · intro behaves
    have secrets := behaves.getSecret
    rw [getSecret, getSecret, same, secret, Option.map_some, Option.map_some] at secrets
    exact congrArg Prod.snd (Option.some.inj secrets)
  · intro flags
    exact ⟨by rw [getPubKey, getPubKey, same], by rw [getSecret, getSecret, same, flags],
      fun _ _ _ => verifyCompact_of_signCompact ecdsa same,
      fun _ _ _ => verifyCompact_of_signCompact ecdsa same.symm⟩

/-- The copy behaves like the original exactly if the last key or memory copied into has the
flag of the original before the copy. -/
theorem copy_behavesLike_iff {key : CKey Point} {n : Nat} (secret : key.pkey.priv = some n)
    (targets : List (Target Point)) :
    BehavesLike ecdsa (copied key targets) key ↔
      ∀ last ∈ targets.getLast?, last.flag = key.fCompressedPubKey := by
  have same : (copied key targets).pkey = key.pkey := by rw [copied_eq]
  rw [behavesLike_iff ecdsa secret same, copied_eq]
  cases targets.getLast? with
  | none => simp
  | some last => simp

end Key

/-- Every number is its own point, and a signature of `hash` is `hash` added to the secret. -/
def plainEcdsa : Ecdsa Nat Nat where
  publicPoint := id
  point2oct compressed n := [if compressed then 2 else 4, UInt8.ofNat n]
  recover _ sig hash recid := if recid = sig.1 % 4 then some (sig.2 - hash) else none
  unchecked _ _ _ _ found := found

def compressedKey : CKey Nat := setCompressedPubKey ⟨⟨some 5, some 5, false⟩, true, false⟩

/-- A copy into new memory, which has lost the flag, and from there into another compressed
key. -/
theorem copy_behavesLike_used :
    BehavesLike plainEcdsa (copied compressedKey
        [.memory false, .used (setCompressedPubKey newKey)]) compressedKey ∧
      (signCompact plainEcdsa compressedKey 9 (6, 14)).any (verifyCompact plainEcdsa
        (copied compressedKey [.memory false, .used (setCompressedPubKey newKey)]) 9) = true := by
  refine ⟨(copy_behavesLike_iff plainEcdsa rfl _).mpr ?_, by decide +kernel⟩
  intro last found
  cases found
  rfl

/-- A compressed key is assigned to a new one. -/
theorem copy_forgets_compression :
    setSecret plainEcdsa newKey (padded 32 5) true = some compressedKey ∧
      ¬BehavesLike plainEcdsa (copied compressedKey [.used newKey]) compressedKey :=
  ⟨by decide +kernel, fun behaves => absurd behaves.getSecret (by decide +kernel)⟩

end SynergyData.KeyCopies
