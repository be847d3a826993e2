import SynergyFormal.Wallet.Encryption
import SynergyFormal.Primitives.Transaction

/-!
# Keys of stealth payments

`FindStealthTransactions` and what `AddToWalletIfInvolvingMe` does to the keys (`wallet.cpp`).  An
output `OP_RETURN` with a key of 33 bytes announces a payment; each other output is tried with
each owned stealth address.  An unlocked wallet computes the secret key of a payment at once.  A
locked one puts the public key into `mapCryptedKeys` without a secret, which the next `Unlock`
adds.

The texts of narrations are left out; whether one can be decrypted decides if the search goes on.
The transactions of the wallet are inputs: whether the transaction was there, and the keys
`AddToWallet` generates when it uses up the default key.
-/

set_option autoImplicit false

namespace SynergyWallet.StealthKeys

open SynergyData
open Option SynergyLib.Wire Script Transaction Solver Stealth CryptoKeyStore Encryption

/-! ## FindStealthTransactions -/

section Functions
variable {Point : Type} [AddCommGroup Point] (crypto : WalletCrypto Point)
variable (decryptNarr : EcSecret → Bytes → Bytes → Bool)

/-- The ephemeral key an output announces, and the script behind it. -/
def ephemKey (scriptPubKey : CScript) : Option (Bytes × CScript) := do
  let (opCode, _, itTxA) ← getOp2 scriptPubKey
  if opCode ≠ opReturn then none
  else
    let (_, vchEphemPK, itTxA) ← getOp2 itTxA
    if vchEphemPK.length ≠ 33 then none else some (vchEphemPK, itTxA)

/-- The shared secret and the key of a payment to the address, if the address is owned. -/
def extractKey (vchEphemPK : Bytes) (sxAddr : CStealthAddress) : Option (EcSecret × Bytes) := do
  let sScan ← ecSecret? sxAddr.scan_secret
  let (sShared, pkExtracted) ← stealthSecret crypto.toCrypto sScan vchEphemPK sxAddr.spend_pubkey
  if isValidSize pkExtracted then some (sShared, pkExtracted) else none

/-- The key of a payment without its secret. -/
def addWithoutSecret (w : CWallet) (vchEphemPK : Bytes) (sxAddr : CStealthAddress)
    (cpkE : Bytes) : CWallet :=
  let w := (addCryptedKey crypto w cpkE []).getD w
  let keyId := keyID crypto cpkE
  let lockedSkMeta := ⟨vchEphemPK, sxAddr.scan_pubkey⟩
  { w with
    mapStealthKeyMeta := Function.update w.mapStealthKeyMeta keyId (some lockedSkMeta)
    db := { w.db with
      sxKeyMeta := Function.update w.db.sxKeyMeta keyId (some lockedSkMeta) } }

/-- The key object of a payment to an address whose spend secret is known. -/
def paymentKey (sxAddr : CStealthAddress) (sShared : EcSecret) : Option CKey := do
  let sSpend ← ecSecret? sxAddr.spend_secret
  let sSpendR ← stealthSharedToSecretSpend crypto.toCrypto sShared sSpend
  let _ ← secretToPublicKey crypto.toCurve sSpendR
  let ckey ← setSecret false sSpendR.e true
  if isValidSize (CKey.getPubKey crypto ckey) && CKey.isValid crypto ckey then some ckey else none

/-- The key of a payment is added unless it is there.  `false` goes on to the next address. -/
def addStealthKey (w : CWallet) (ckidMatch : Uint160) (vchEphemPK : Bytes)
    (sxAddr : CStealthAddress) (sShared : EcSecret) (cpkE : Bytes) : Bool × CWallet :=
  if w.haveKey ckidMatch then (true, w)
  else if w.isLocked then (true, addWithoutSecret crypto w vchEphemPK sxAddr cpkE)
  else
    match paymentKey crypto sxAddr sShared with
    | none => (false, w)
    | some ckey => addKey crypto w ckey

/-- Whether the search ends here, and the script behind the narration. -/
def readNarration (sShared : EcSecret) (vchEphemPK : Bytes) (itTxA : CScript) : Bool × CScript :=
  match getOp2 itTxA with
  | none => (true, itTxA)
  | some (opCode, _, itNarr) =>
    if opCode ≠ opReturn then (true, itTxA)
    else
      match getOp2 itNarr with
      | none => (true, itTxA)
      | some (_, vchENarr, itNext) =>
        if vchENarr.length = 0 then (true, itTxA)
        else (decryptNarr sShared vchEphemPK vchENarr, itNext)

/-- The loop over the addresses: the wallet, the place in the script, and `txnMatch`. -/
def scanAddresses (vchEphemPK : Bytes) (ckidMatch : Uint160) :
    List CStealthAddress → CWallet → CScript → CWallet × CScript × Bool
  | [], w, itTxA => (w, itTxA, false)
  | sxAddr :: rest, w, itTxA =>
    match extractKey crypto vchEphemPK sxAddr with
    | none => scanAddresses vchEphemPK ckidMatch rest w itTxA
    | some (sShared, cpkE) =>
      if keyID crypto cpkE ≠ ckidMatch then scanAddresses vchEphemPK ckidMatch rest w itTxA
      else
        match addStealthKey crypto w ckidMatch vchEphemPK sxAddr sShared cpkE with
        | (false, w) => scanAddresses vchEphemPK ckidMatch rest w itTxA
        | (true, w) =>
          match readNarration decryptNarr sShared vchEphemPK itTxA with
          | (true, itTxA) => (w, itTxA, true)
          | (false, itTxA) => scanAddresses vchEphemPK ckidMatch rest w itTxA

/-- The loop over the other outputs; one payment matches an ephemeral key. -/
def scanOutputs (vchEphemPK : Bytes) (nOutputIdOuter : Nat) :
    List (CTxOut × Nat) → CWallet → CScript → CWallet
  | [], w, _ => w
  | (txoutB, nOutputId) :: rest, w, itTxA =>
    if nOutputId = nOutputIdOuter then scanOutputs vchEphemPK nOutputIdOuter rest w itTxA
    else
      match extractDestination crypto.hash160 txoutB.scriptPubKey with
      | some (.keyID ckidMatch) =>
        match scanAddresses crypto decryptNarr vchEphemPK ckidMatch w.stealthAddresses w
            itTxA with
        | (w, _, true) => w
        | (w, itTxA, false) => scanOutputs vchEphemPK nOutputIdOuter rest w itTxA
      | _ => scanOutputs vchEphemPK nOutputIdOuter rest w itTxA

/-- One pass of the loop over all outputs. -/
def scanTransaction (tx : CTransaction) (w : CWallet) (output : CTxOut × Nat) : CWallet :=
  match ephemKey output.1.scriptPubKey with
  | none => w
  | some (vchEphemPK, itTxA) =>
    scanOutputs crypto decryptNarr vchEphemPK output.2 tx.vout.zipIdx w itTxA

def findStealthTransactions (w : CWallet) (tx : CTransaction) : CWallet :=
  tx.vout.zipIdx.foldl (scanTransaction crypto decryptNarr tx) w

/-- With the keys `AddToWallet` generates; a locked wallet generates none. -/
def addToWalletIfInvolvingMe (w : CWallet) (tx : CTransaction) (fExisted fUpdate : Bool)
    (generated : List CKey) : Option CWallet :=
  if fExisted && !fUpdate then some w
  else newKeyPool crypto (findStealthTransactions crypto decryptNarr w tx) generated

end Functions

/-! ## What a transaction can do to the keys -/

section Adds
variable {Point : Type} [AddCommGroup Point] {crypto : WalletCrypto Point}
variable {decryptNarr : EcSecret → Bytes → Bytes → Bool}

/-- The transaction announces an ephemeral key and pays the key that it gives for an address. -/
structure Payment (crypto : WalletCrypto Point) (tx : CTransaction)
    (addresses : List CStealthAddress) (vchEphemPK : Bytes) (sxAddr : CStealthAddress)
    (sShared : EcSecret) (cpkE : Bytes) : Prop where
  announced : ∃ txout ∈ tx.vout, ∃ itTxA, ephemKey txout.scriptPubKey = some (vchEphemPK, itTxA)
  address : sxAddr ∈ addresses
  extracted : extractKey crypto vchEphemPK sxAddr = some (sShared, cpkE)
  paid : ∃ txout ∈ tx.vout,
    extractDestination crypto.hash160 txout.scriptPubKey = some (.keyID (keyID crypto cpkE))

/-- The wallets that come out of one by adding keys of payments of the transaction. -/
inductive Adds (crypto : WalletCrypto Point) (tx : CTransaction) (start : CWallet) :
    CWallet → Prop where
  | refl : Adds crypto tx start start
  | add {w : CWallet} {vchEphemPK : Bytes} {sxAddr : CStealthAddress} {sShared : EcSecret}
      {cpkE : Bytes} : Adds crypto tx start w →
      Payment crypto tx start.stealthAddresses vchEphemPK sxAddr sShared cpkE →
      Adds crypto tx start
        (addStealthKey crypto w (keyID crypto cpkE) vchEphemPK sxAddr sShared cpkE).2

variable {w' w : CWallet} {ckidMatch : Uint160} {vchEphemPK : Bytes}

theorem setCrypted_stealthAddresses (run : setCrypted w = some w') :
    w'.stealthAddresses = w.stealthAddresses := by
  unfold setCrypted at run
  split_ifs at run <;> rw [← some.inj run]

theorem addCryptedKey_stealthAddresses {vchPubKey vchCryptedSecret : Bytes}
    (run : addCryptedKey crypto w vchPubKey vchCryptedSecret = some w') :
    w'.stealthAddresses = w.stealthAddresses := by
  unfold addCryptedKey at run
  obtain ⟨crypted, set, added⟩ := bind_eq_some_iff.mp run
  have set := setCrypted_stealthAddresses set
  rw [← some.inj added]
  exact set

theorem addKey_stealthAddresses {key : CKey} :
    (addKey crypto w key).2.stealthAddresses = w.stealthAddresses := by
  unfold addKey
  simp only
  split_ifs
  · split <;> rfl
  · rfl
  · split
    · rfl
    · rename_i added
      obtain ⟨_, _, added⟩ := bind_eq_some_iff.mp added
      exact addCryptedKey_stealthAddresses added

theorem addStealthKey_stealthAddresses {sxAddr : CStealthAddress} {sShared : EcSecret}
    {cpkE : Bytes} :
    (addStealthKey crypto w ckidMatch vchEphemPK sxAddr sShared cpkE).2.stealthAddresses =
      w.stealthAddresses := by
  unfold addStealthKey
  split_ifs
  · rfl
  · change ((addCryptedKey crypto w cpkE []).getD w).stealthAddresses = w.stealthAddresses
    cases added : addCryptedKey crypto w cpkE [] with
    | none => rfl
    | some w' => exact addCryptedKey_stealthAddresses added
  · split
    · rfl
    · exact addKey_stealthAddresses

variable {tx : CTransaction} {start : CWallet}

section Scan
variable (adds : Adds crypto tx start w)
include adds

theorem Adds.stealthAddresses : w.stealthAddresses = start.stealthAddresses := by
  induction adds with
  | refl => rfl
  | add _ _ ih =>
    exact addStealthKey_stealthAddresses.trans ih

theorem Adds.scanAddresses
    (announced : ∃ txout ∈ tx.vout, ∃ itTxA, ephemKey txout.scriptPubKey = some (vchEphemPK, itTxA))
    (paid : ∃ txout ∈ tx.vout,
      extractDestination crypto.hash160 txout.scriptPubKey = some (.keyID ckidMatch))
    {addresses : List CStealthAddress}
    (known : ∀ sxAddr ∈ addresses, sxAddr ∈ start.stealthAddresses) (itTxA : CScript) :
    Adds crypto tx start
      (scanAddresses crypto decryptNarr vchEphemPK ckidMatch addresses w itTxA).1 := by
  induction addresses generalizing w itTxA with
  | nil => exact adds
  | cons sxAddr rest ih =>
    obtain ⟨here, later⟩ := List.forall_mem_cons.mp known
    unfold StealthKeys.scanAddresses
    cases extracted : extractKey crypto vchEphemPK sxAddr with
    | none => exact ih adds later itTxA
    | some key =>
      obtain ⟨sShared, cpkE⟩ := key
      simp only
      split_ifs with same
      · exact ih adds later itTxA
      · rw [not_not] at same
        subst same
        have added := adds.add ⟨announced, here, extracted, paid⟩
        cases result : addStealthKey crypto w (keyID crypto cpkE) vchEphemPK sxAddr sShared
            cpkE with
        | mk goesOn w' =>
          rw [result] at added
          cases goesOn with
          | false => exact ih added later itTxA
          | true =>
            simp only
            split
            · exact added
            · exact ih added later _

theorem Adds.scanOutputs
    (announced : ∃ txout ∈ tx.vout, ∃ itTxA, ephemKey txout.scriptPubKey = some (vchEphemPK, itTxA))
    (nOutputIdOuter : Nat) {outputs : List (CTxOut × Nat)}
    (known : ∀ output ∈ outputs, output.1 ∈ tx.vout) (itTxA : CScript) :
    Adds crypto tx start
      (scanOutputs crypto decryptNarr vchEphemPK nOutputIdOuter outputs w itTxA) := by
  induction outputs generalizing w itTxA with
  | nil => exact adds
  | cons output rest ih =>
    obtain ⟨txoutB, nOutputId⟩ := output
    obtain ⟨here, later⟩ := List.forall_mem_cons.mp known
    unfold StealthKeys.scanOutputs
    split_ifs
    · exact ih adds later itTxA
    · split
      · rename_i ckidMatch paid
        have scanned : Adds crypto tx start (StealthKeys.scanAddresses crypto decryptNarr
            vchEphemPK ckidMatch w.stealthAddresses w itTxA).1 :=
          adds.scanAddresses announced ⟨txoutB, here, paid⟩
            (fun sxAddr member => adds.stealthAddresses ▸ member) itTxA
        split
        · rename_i result
          rw [result] at scanned
          exact scanned
        · rename_i result
          rw [result] at scanned
          exact ih scanned later _
      · exact ih adds later itTxA

theorem Adds.scanTransaction {output : CTxOut × Nat} (known : output.1 ∈ tx.vout) :
    Adds crypto tx start (scanTransaction crypto decryptNarr tx w output) := by
  unfold StealthKeys.scanTransaction
  split
  · exact adds
  · rename_i vchEphemPK itTxA announced
    apply adds.scanOutputs ⟨output.1, known, itTxA, announced⟩
    intro other member
    exact List.fst_mem_of_mem_zipIdx member

theorem Adds.foldl_scanTransaction {outputs : List (CTxOut × Nat)}
    (known : ∀ output ∈ outputs, output.1 ∈ tx.vout) :
    Adds crypto tx start (outputs.foldl (StealthKeys.scanTransaction crypto decryptNarr tx) w) := by
  induction outputs generalizing w with
  | nil => exact adds
  | cons output rest ih =>
    obtain ⟨here, later⟩ := List.forall_mem_cons.mp known
    exact ih (adds.scanTransaction here) later

end Scan

theorem adds_findStealthTransactions :
    Adds crypto tx start (findStealthTransactions crypto decryptNarr start tx) := by
  apply Adds.refl.foldl_scanTransaction
  intro output member
  exact List.fst_mem_of_mem_zipIdx member

end Adds

/-! ## Keys that wait for their secret -/

section Pending
variable {Point : Type} [AddCommGroup Point] {crypto : WalletCrypto Point}
variable {plain : List CStealthAddress} {sxAddr : CStealthAddress} {vchEphemPK cpkE : Bytes}
variable {sShared : EcSecret}

/-- The secret key of the payment needs all of its 32 bytes. -/
def LongSum (crypto : WalletCrypto Point) (spend_pubkey : Bytes) (sShared : EcSecret) : Prop :=
  ∀ spend : EcSecret, secretToPublicKey crypto.toCurve spend = some spend_pubkey →
    256 ^ 31 ≤ (spend.value + sShared.value) % crypto.order

/-- An entry without secret whose secret `UnlockStealthAddresses` can compute. -/
structure Pending (crypto : WalletCrypto Point) (plain : List CStealthAddress) (w : CWallet)
    (address : Uint160) (entry : Bytes × Bytes) : Prop where
  empty : entry.2 = []
  id : keyID crypto entry.1 = address
  key : ∃ sxAddr ∈ plain, ∃ vchEphemPK sShared,
    w.mapStealthKeyMeta address = some ⟨vchEphemPK, sxAddr.scan_pubkey⟩ ∧
    extractKey crypto vchEphemPK sxAddr = some (sShared, entry.1) ∧
    LongSum crypto sxAddr.spend_pubkey sShared

variable {address : Uint160} {w : CWallet} {entry : Bytes × Bytes} {sScan : EcSecret}
  {master : Bytes}

theorem Pending.of_meta {w' : CWallet} (pending : Pending crypto plain w address entry)
    (same : w'.mapStealthKeyMeta address = w.mapStealthKeyMeta address) :
    Pending crypto plain w' address entry :=
  ⟨pending.empty, pending.id, same ▸ pending.key⟩

theorem ecSecret?_eq_some_iff {bytes : Bytes} {secret : EcSecret} :
    ecSecret? bytes = some secret ↔ secret.e = bytes := by
  constructor
  · intro found
    unfold ecSecret? at found
    split_ifs at found
    rw [← some.inj found]
  · intro same
    rw [← same]
    exact ecSecret?_e

theorem extractKey_eq_some
    (extracted : extractKey crypto vchEphemPK sxAddr = some (sShared, cpkE)) :
    ∃ sScan : EcSecret, sScan.e = sxAddr.scan_secret ∧
      stealthSecret crypto.toCrypto sScan vchEphemPK sxAddr.spend_pubkey =
        some (sShared, cpkE) := by
  unfold extractKey at extracted
  obtain ⟨sScan, scan, extracted⟩ := bind_eq_some_iff.mp extracted
  obtain ⟨⟨shared, key⟩, secret, extracted⟩ := bind_eq_some_iff.mp extracted
  simp only at extracted
  split_ifs at extracted
  obtain ⟨rfl, rfl⟩ := Prod.mk.inj (some.inj extracted)
  exact ⟨sScan, ecSecret?_eq_some_iff.mp scan, secret⟩

theorem extractKey_of_payment (scan : sScan.e = sxAddr.scan_secret)
    (payment : stealthSecret crypto.toCrypto sScan vchEphemPK sxAddr.spend_pubkey =
      some (sShared, cpkE)) (size : isValidSize cpkE = true) :
    extractKey crypto vchEphemPK sxAddr = some (sShared, cpkE) := by
  simp only [extractKey, ecSecret?_eq_some_iff.mpr scan, payment, size, bind_eq_bind,
    bind_some, if_true]

theorem owned_of_extractKey
    (extracted : extractKey crypto vchEphemPK sxAddr = some (sShared, cpkE)) :
    ¬ sxAddr.scan_secret.length < 32 := by
  obtain ⟨sScan, scan, -⟩ := extractKey_eq_some extracted
  rw [← scan, sScan.size]
  decide

theorem extractKey_cryptAddress : extractKey crypto vchEphemPK (cryptAddress crypto master sxAddr) =
      extractKey crypto vchEphemPK sxAddr := by
  unfold cryptAddress
  split_ifs <;> rfl

theorem cryptAddress_scan_pubkey :
    (cryptAddress crypto master sxAddr).scan_pubkey = sxAddr.scan_pubkey := by
  unfold cryptAddress
  split_ifs <;> rfl

theorem cryptAddress_spend_pubkey :
    (cryptAddress crypto master sxAddr).spend_pubkey = sxAddr.spend_pubkey := by
  unfold cryptAddress
  split_ifs <;> rfl

theorem stealthSecretSpend_of_longSum {spend : EcSecret} {spend_pubkey : Bytes}
    (publicKey : secretToPublicKey crypto.toCurve spend = some spend_pubkey)
    (payment : stealthSecret crypto.toCrypto sScan vchEphemPK spend_pubkey = some (sShared, cpkE))
    (long : LongSum crypto spend_pubkey sShared) :
    ∃ secret : EcSecret, stealthSecretSpend crypto.toCrypto sScan vchEphemPK spend = some secret ∧
      secretToPublicKey crypto.toCurve secret = some cpkE ∧
      CKey.getPubKey crypto ⟨secret.value, true⟩ = cpkE ∧
      CKey.isValid crypto ⟨secret.value, true⟩ = true := by
  obtain ⟨nonzero, rfl⟩ := (pointOut_eq_some_iff _).mp publicKey
  unfold stealthSecret at payment
  obtain ⟨Q, ephem, payment⟩ := bind_eq_some_iff.mp payment
  obtain ⟨vchOutQ, exchanged, payment⟩ := bind_eq_some_iff.mp payment
  simp only [pointIn_point2oct _ nonzero, bind_eq_bind, bind_some] at payment
  obtain ⟨pkOut, out, payment⟩ := bind_eq_some_iff.mp payment
  obtain ⟨rfl, rfl⟩ := Prod.mk.inj (some.inj payment)
  have large := long spend publicKey
  obtain ⟨secret, computed⟩ := addSecrets_isSome_iff.mpr large
  have value := ((addSecrets_eq_some_iff _ _ _ secret).mp computed).2
  have point : secretToPublicKey crypto.toCurve secret = some pkOut := by
    rw [secretToPublicKey, addSecrets_point computed]
    exact out
  refine ⟨secret, ?_, point, ?_, ?_⟩
  · simp only [stealthSecretSpend, ephem, exchanged, bind_eq_bind, bind_some]
    exact computed
  · exact ((pointOut_eq_some_iff _).mp point).2.symm
  · rw [CKey.isValid_iff, value]
    exact ⟨Nat.lt_of_lt_of_le (by decide) large, Nat.mod_lt _ crypto.prime.pos⟩

theorem find_scan_pubkey (distinct : (plain.map CStealthAddress.scan_pubkey).Nodup)
    (member : sxAddr ∈ plain) :
    plain.find? (fun other => other.scan_pubkey = sxAddr.scan_pubkey) = some sxAddr := by
  induction plain with
  | nil => exact absurd member List.not_mem_nil
  | cons first rest ih =>
    obtain ⟨single, others⟩ := List.nodup_cons.mp distinct
    rcases List.mem_cons.mp member with here | later
    · subst here
      exact List.find?_cons_of_pos (decide_eq_true rfl)
    · have differs : first.scan_pubkey ≠ sxAddr.scan_pubkey := fun same =>
        single (same ▸ List.mem_map_of_mem later)
      rw [List.find?_cons_of_neg (by simpa using differs)]
      exact ih others later

theorem Pending.expandedKey (pending : Pending crypto plain w address entry)
    (opened : w.stealthAddresses = plain) (distinct : (plain.map CStealthAddress.scan_pubkey).Nodup)
    (sound : ∀ sxAddr ∈ plain, SoundAddress crypto sxAddr) :
    ∃ ckey, expandedKey crypto w entry.1 = some ckey ∧ CKey.getPubKey crypto ckey = entry.1 ∧
      CKey.isValid crypto ckey = true := by
  obtain ⟨sxAddr, member, vchEphemPK, sShared, found, extracted, long⟩ := pending.key
  obtain ⟨sScan, scan, payment⟩ := extractKey_eq_some extracted
  obtain ⟨spend, secret, publicKey⟩ := sound sxAddr member (owned_of_extractKey extracted)
  obtain ⟨sSpendR, computed, point, same, valid⟩ :=
    stealthSecretSpend_of_longSum publicKey payment long
  have read : setSecret false sSpendR.e true = some ⟨sSpendR.value, true⟩ := by
    rw [setSecret, if_neg (not_not.mpr sSpendR.size)]
    rfl
  have size : isValidSize entry.1 = true := by
    rw [← same, isValidSize, CKey.getPubKey, point2oct_length (CKey.point_ne_zero valid)]
    rfl
  refine ⟨⟨sSpendR.value, true⟩, ?_, same, valid⟩
  simp only [CryptoKeyStore.expandedKey, pending.id, found, opened,
    find_scan_pubkey distinct member, bind_eq_bind, bind_some,
    ecSecret?_eq_some_iff.mpr secret.symm, ecSecret?_eq_some_iff.mpr scan, computed, point, read,
    same, size, valid, BEq.rfl, Bool.and_self, if_true]

end Pending

end SynergyWallet.StealthKeys
