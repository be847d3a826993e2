import SynergyFormal.Wallet.StealthKeys
import SynergyFormal.Lib.Session

/-!
# Unlocking after any history

Runs of an encrypted wallet: locking, unlocking with its passphrase, new keys and transactions
that may pay its stealth addresses while it is locked.  The passphrase opens the wallet and every
key of it can be used as long as no key that waits for its secret stands in the first place of
`mapCryptedKeys`, where `CCryptoKeyStore::Unlock` tries the master key, and none belongs to a
payment whose secret key has a short encoding.
-/

set_option autoImplicit false

namespace SynergyWallet.UnlockRuns

open SynergyLib SynergyData
open Option Function Wire BigEndian Ordered Session Script Transaction Solver Stealth CryptoKeyStore
  Encryption StealthKeys

/-! ## Unlocking adds the secrets -/

variable {Point : Type} [AddCommGroup Point] {crypto : WalletCrypto Point}
  {decryptNarr : EcSecret → Bytes → Bytes → Bool}
variable {passphrase master : Bytes} {plain : List CStealthAddress} {w w' : CWallet}

/-- An unlocked wallet in which the ids of the list may still lack their secrets. -/
structure Expanding (crypto : WalletCrypto Point) (passphrase master : Bytes)
    (plain : List CStealthAddress) (left : List Uint160) (w : CWallet) : Prop where
  encrypted : Encrypted crypto passphrase master plain w
  unlocked : w.isLocked = false
  distinct : (plain.map CStealthAddress.scan_pubkey).Nodup
  entries : ∀ address entry, w.mapCryptedKeys.lookup address = some entry →
    Sealed crypto master address entry ∨ address ∈ left ∧ Pending crypto plain w address entry

theorem frame_meta {mapStealthKeyMeta sxKeyMeta : Uint160 → Option CStealthKeyMetadata} :
    Frame w { w with mapStealthKeyMeta, db := { w.db with sxKeyMeta } } :=
  ⟨rfl, rfl, rfl, rfl, rfl, rfl, rfl, fun _ clear => clear⟩

theorem Expanding.expandEntry {address : Uint160} {left : List Uint160}
    (expanding : Expanding crypto passphrase master plain (address :: left) w) :
    Expanding crypto passphrase master plain left (expandEntry crypto w address) := by
  have keepsOther : ∀ other entry, other ≠ address →
      w.mapCryptedKeys.lookup other = some entry →
      Sealed crypto master other entry ∨ other ∈ left ∧ Pending crypto plain w other entry := by
    intro other entry differs found
    refine (expanding.entries other entry found).imp_right fun waits => ?_
    exact ⟨(List.mem_cons.mp waits.1).resolve_left differs, waits.2⟩
  -- an entry without secret is replaced under its own id
  by_cases waits : ∃ entry, w.mapCryptedKeys.lookup address = some entry ∧
      Pending crypto plain w address entry
  · obtain ⟨⟨pubKey, secret⟩, found, pending⟩ := waits
    have empty : secret = [] := pending.empty
    subst empty
    obtain ⟨ckey, expanded, same, valid⟩ := pending.expandedKey
      (expanding.encrypted.unlocked expanding.unlocked).2 expanding.distinct
      expanding.encrypted.sound
    have result : CryptoKeyStore.expandEntry crypto w address =
        { withEntry crypto w (CKey.getPubKey crypto ckey) (sealedSecret crypto master ckey) with
          db := { (withEntry crypto w (CKey.getPubKey crypto ckey)
              (sealedSecret crypto master ckey)).db with
            sxKeyMeta := update w.db.sxKeyMeta address none } } := by
      simp only [CryptoKeyStore.expandEntry, found, expanded,
        expanding.encrypted.addKey expanding.unlocked]
      rw [pending.id]
      rfl
    have frame : Frame w (CryptoKeyStore.expandEntry crypto w address) := by
      rw [result]
      exact withEntry_frame.trans frame_meta
    refine ⟨expanding.encrypted.frame frame, frame.isLocked.trans expanding.unlocked,
      expanding.distinct, ?_⟩
    intro other entry lookup
    rw [result] at lookup ⊢
    have lookup := withEntry_lookup.symm.trans lookup
    rw [same, pending.id] at lookup
    split_ifs at lookup with here
    · left
      rw [← some.inj lookup, here, ← pending.id, ← same]
      exact ⟨ckey, valid, rfl, rfl⟩
    · exact (keepsOther other entry here lookup).imp_right fun waits =>
        ⟨waits.1, waits.2.of_meta rfl⟩
  · have unchanged : CryptoKeyStore.expandEntry crypto w address = w := by
      cases found : w.mapCryptedKeys.lookup address with
      | none => simp only [CryptoKeyStore.expandEntry, found]
      | some entry =>
        apply expandEntry_of_sealed found
        refine (expanding.entries address entry found).resolve_right fun pending => ?_
        exact waits ⟨entry, found, pending.2⟩
    rw [unchanged]
    refine ⟨expanding.encrypted, expanding.unlocked, expanding.distinct, ?_⟩
    intro other entry found
    by_cases here : other = address
    · refine (expanding.entries other entry found).imp_right fun pending => ?_
      exact absurd ⟨entry, here ▸ found, here ▸ pending.2⟩ waits
    · exact keepsOther other entry here found

theorem Expanding.expandAll
    (expanding : Expanding crypto passphrase master plain w.mapCryptedKeys.keys w) :
    Expanding crypto passphrase master plain [] (expandAll crypto w) := by
  unfold CryptoKeyStore.expandAll
  generalize w.mapCryptedKeys.keys = addresses at expanding
  induction addresses generalizing w with
  | nil => exact expanding
  | cons address rest ih => exact ih expanding.expandEntry

theorem Expanding.allSealed (expanding : Expanding crypto passphrase master plain [] w) :
    AllSealed crypto master w := fun address entry found =>
  (expanding.entries address entry found).resolve_right fun waits =>
    absurd waits.1 List.not_mem_nil

/-! ## Runs of an encrypted wallet -/

/-- An encrypted wallet that its passphrase opens: keys without secret wait only while it is
locked, and not in the first place. -/
structure Guarded (crypto : WalletCrypto Point) (passphrase master : Bytes)
    (plain : List CStealthAddress) (w : CWallet) : Prop where
  encrypted : Encrypted crypto passphrase master plain w
  distinct : (plain.map CStealthAddress.scan_pubkey).Nodup
  entries : ∀ address entry, w.mapCryptedKeys.lookup address = some entry →
    Sealed crypto master address entry ∨ w.isLocked = true ∧ Pending crypto plain w address entry
  first : ∀ address entry, w.mapCryptedKeys.first = some (address, entry) →
    Sealed crypto master address entry

theorem guarded_of_allSealed (encrypted : Encrypted crypto passphrase master plain w)
    (distinct : (plain.map CStealthAddress.scan_pubkey).Nodup)
    (allSealed : AllSealed crypto master w) : Guarded crypto passphrase master plain w :=
  ⟨encrypted, distinct, fun address entry found => Or.inl (allSealed address entry found),
    allSealed.first⟩

variable (guarded : Guarded crypto passphrase master plain w)

include guarded in
theorem Guarded.allSealed (unlocked : w.isLocked = false) :
    AllSealed crypto master w := fun address entry found =>
  (guarded.entries address entry found).resolve_right fun waits =>
    absurd (unlocked.symm.trans waits.1) Bool.false_ne_true

/-! ### Lock and Unlock -/

section Guarded
include guarded

theorem Guarded.lock : Guarded crypto passphrase master plain (lock w).2 := by
  rw [guarded.encrypted.lock]
  refine ⟨guarded.encrypted.lockedState, guarded.distinct, ?_, guarded.first⟩
  intro address entry found
  refine (guarded.entries address entry found).imp_right fun waits => ?_
  exact ⟨guarded.encrypted.isLocked_lockedState, waits.2.of_meta rfl⟩

theorem Guarded.unlock_locked (locked : w.isLocked = true) :
    ∃ opened, unlock crypto w passphrase = (true, opened) ∧
      Encrypted crypto passphrase master plain opened ∧ opened.isLocked = false ∧
      AllSealed crypto master opened := by
  have expanding : Expanding crypto passphrase master plain
      (unlockedState master plain w).mapCryptedKeys.keys (unlockedState master plain w) := by
    refine ⟨guarded.encrypted.unlockedState, guarded.encrypted.isLocked_unlockedState,
      guarded.distinct, ?_⟩
    intro address entry found
    refine (guarded.entries address entry found).imp_right fun waits => ?_
    exact ⟨OrderedMap.mem_keys.mpr ⟨entry, found⟩, waits.2.of_meta rfl⟩
  have expanded := expanding.expandAll
  exact ⟨_, guarded.encrypted.unlock locked guarded.first, expanded.encrypted, expanded.unlocked,
    expanded.allSealed⟩

theorem Guarded.unlock : Guarded crypto passphrase master plain (unlock crypto w passphrase).2 := by
  cases locked : w.isLocked with
  | true =>
    obtain ⟨opened, run, encrypted, -, allSealed⟩ := guarded.unlock_locked locked
    rw [run]
    exact guarded_of_allSealed encrypted guarded.distinct allSealed
  | false =>
    rw [CryptoKeyStore.unlock, locked]
    exact guarded

end Guarded

/-! ### New keys -/

variable {key : CKey}

include guarded in
theorem Guarded.addKey (valid : CKey.isValid crypto key = true) :
    Guarded crypto passphrase master plain (addKey crypto w key).2 := by
  cases locked : w.isLocked with
  | true =>
    rw [addKey_of_locked locked]
    exact guarded
  | false =>
    rw [guarded.encrypted.addKey locked]
    apply guarded_of_allSealed
    · exact guarded.encrypted.frame withEntry_frame
    · exact guarded.distinct
    · exact (guarded.allSealed locked).withEntry valid

include guarded in
theorem Guarded.newKeyPool {keys : List CKey} (valid : ∀ key ∈ keys, CKey.isValid crypto key = true)
    (run : newKeyPool crypto w keys = some w') : Guarded crypto passphrase master plain w' := by
  unfold Encryption.newKeyPool at run
  split_ifs at run with locked
  · rw [← some.inj run]
    exact guarded
  · rw [Bool.not_eq_true] at locked
    rw [foldlM_generateNewKey guarded.encrypted locked] at run
    rw [← some.inj run]
    apply guarded_of_allSealed
    · exact guarded.encrypted.frame (addSealed_frame _ _)
    · exact guarded.distinct
    · exact (guarded.allSealed locked).addSealed valid

/-! ### Payments -/

/-- If the wallet is locked, the key of each payment to it comes after the first entry and can be
computed from its spend secret. -/
def Harmless (crypto : WalletCrypto Point) (w : CWallet) (tx : CTransaction) : Prop :=
  w.isLocked = true → ∀ vchEphemPK sxAddr sShared cpkE,
    Payment crypto tx w.stealthAddresses vchEphemPK sxAddr sShared cpkE →
    w.haveKey (keyID crypto cpkE) = false →
    (∃ first, w.mapCryptedKeys.first = some first ∧ first.1 < keyID crypto cpkE) ∧
      LongSum crypto sxAddr.spend_pubkey sShared

theorem haveKey_of_crypted (crypted : w.fUseCrypto = true) {address : Uint160} :
    w.haveKey address = (w.mapCryptedKeys.lookup address).isSome :=
  if_pos crypted

theorem addWithoutSecret_of_crypted (crypted : w.fUseCrypto = true) {vchEphemPK : Bytes}
    {sxAddr : CStealthAddress} {cpkE : Bytes} : addWithoutSecret crypto w vchEphemPK sxAddr cpkE =
      { withEntry crypto w cpkE [] with
        mapStealthKeyMeta := update w.mapStealthKeyMeta (keyID crypto cpkE)
          (some ⟨vchEphemPK, sxAddr.scan_pubkey⟩)
        db := { (withEntry crypto w cpkE []).db with
          sxKeyMeta := update w.db.sxKeyMeta (keyID crypto cpkE)
            (some ⟨vchEphemPK, sxAddr.scan_pubkey⟩) } } := by
  rw [addWithoutSecret, addCryptedKey_of_crypted crypted]
  rfl

variable {tx : CTransaction} {vchEphemPK cpkE : Bytes} {sxAddr : CStealthAddress}
variable {sShared : EcSecret}

theorem frame_addWithoutSecret (crypted : w.fUseCrypto = true) :
    Frame w (addWithoutSecret crypto w vchEphemPK sxAddr cpkE) := by
  rw [addWithoutSecret_of_crypted crypted]
  exact withEntry_frame.trans frame_meta

include guarded in
theorem Guarded.addWithoutSecret (locked : w.isLocked = true) (harmless : Harmless crypto w tx)
    (payment : Payment crypto tx w.stealthAddresses vchEphemPK sxAddr sShared cpkE)
    (absent : w.haveKey (keyID crypto cpkE) = false) :
    Guarded crypto passphrase master plain (addWithoutSecret crypto w vchEphemPK sxAddr cpkE) ∧
      Harmless crypto (addWithoutSecret crypto w vchEphemPK sxAddr cpkE) tx := by
  obtain ⟨⟨first, begins, greater⟩, long⟩ :=
    harmless locked vchEphemPK sxAddr sShared cpkE payment absent
  have result : StealthKeys.addWithoutSecret crypto w vchEphemPK sxAddr cpkE = _ :=
    addWithoutSecret_of_crypted guarded.encrypted.crypted
  have frame : Frame w (StealthKeys.addWithoutSecret crypto w vchEphemPK sxAddr cpkE) :=
    frame_addWithoutSecret guarded.encrypted.crypted
  have lookups : ∀ address, (StealthKeys.addWithoutSecret crypto w vchEphemPK sxAddr
      cpkE).mapCryptedKeys.lookup address = if address = keyID crypto cpkE then some (cpkE, [])
        else w.mapCryptedKeys.lookup address := by
    intro address
    rw [result]
    exact withEntry_lookup
  have firstEntry : (StealthKeys.addWithoutSecret crypto w vchEphemPK sxAddr
      cpkE).mapCryptedKeys.first = some first := by
    rw [result]
    exact OrderedMap.first_insert_of_lt begins greater
  refine ⟨⟨guarded.encrypted.frame frame, guarded.distinct, ?_, ?_⟩, ?_⟩
  · intro address entry found
    rw [lookups] at found
    rw [frame.isLocked]
    split_ifs at found with here
    · right
      have member := payment.address
      rw [(guarded.encrypted.locked locked).2] at member
      obtain ⟨clear, present, rfl⟩ := List.mem_map.mp member
      have extracted := payment.extracted
      rw [extractKey_cryptAddress] at extracted
      rw [cryptAddress_spend_pubkey] at long
      rw [← some.inj found]
      refine ⟨locked, rfl, here.symm, clear, present, vchEphemPK, sShared, ?_, extracted, long⟩
      rw [result, here, cryptAddress_scan_pubkey]
      exact update_self _ _ _
    · refine (guarded.entries address entry found).imp_right fun waits => ?_
      refine ⟨locked, waits.2.of_meta ?_⟩
      rw [result]
      exact update_of_ne here _ _
  · intro address entry begin
    rw [firstEntry, ← begins] at begin
    exact guarded.first address entry begin
  · intro _ otherEphem otherAddr otherShared otherKey other missing
    rw [frame.stealthAddresses] at other
    have before : w.haveKey (keyID crypto otherKey) = false := by
      rw [haveKey_of_crypted (frame.fUseCrypto.trans guarded.encrypted.crypted), lookups] at missing
      rw [haveKey_of_crypted guarded.encrypted.crypted]
      split_ifs at missing
      · exact absurd missing.symm Bool.false_ne_true
      · exact missing
    obtain ⟨⟨same, again, later⟩, otherLong⟩ :=
      harmless locked otherEphem otherAddr otherShared otherKey other before
    rw [begins] at again
    rw [firstEntry]
    exact ⟨⟨same, again, later⟩, otherLong⟩

theorem paymentKey_valid (computed : paymentKey crypto sxAddr sShared = some key) :
    CKey.isValid crypto key = true := by
  unfold paymentKey at computed
  obtain ⟨_, _, computed⟩ := bind_eq_some_iff.mp computed
  obtain ⟨_, _, computed⟩ := bind_eq_some_iff.mp computed
  obtain ⟨_, _, computed⟩ := bind_eq_some_iff.mp computed
  obtain ⟨ckey, _, computed⟩ := bind_eq_some_iff.mp computed
  split_ifs at computed with checks
  rw [← some.inj computed]
  exact (Bool.and_eq_true_iff.mp checks).2

include guarded in
theorem Guarded.addStealthKey (harmless : Harmless crypto w tx)
    (payment : Payment crypto tx w.stealthAddresses vchEphemPK sxAddr sShared cpkE) :
    Guarded crypto passphrase master plain
        (addStealthKey crypto w (keyID crypto cpkE) vchEphemPK sxAddr sShared cpkE).2 ∧
      Harmless crypto
        (addStealthKey crypto w (keyID crypto cpkE) vchEphemPK sxAddr sShared cpkE).2 tx := by
  unfold StealthKeys.addStealthKey
  split_ifs with present locked
  · exact ⟨guarded, harmless⟩
  · exact guarded.addWithoutSecret locked harmless payment (Bool.not_eq_true _ ▸ present)
  · split
    · exact ⟨guarded, harmless⟩
    · rename_i key computed
      refine ⟨guarded.addKey (paymentKey_valid computed), ?_⟩
      rw [Bool.not_eq_true] at locked
      rw [guarded.encrypted.addKey locked]
      intro lockedNow
      rw [withEntry_frame.isLocked, locked] at lockedNow
      exact absurd lockedNow Bool.false_ne_true

include guarded in
theorem Guarded.adds (harmless : Harmless crypto w tx) (adds : Adds crypto tx w w') :
    Guarded crypto passphrase master plain w' := by
  have both : Guarded crypto passphrase master plain w' ∧ Harmless crypto w' tx := by
    induction adds with
    | refl => exact ⟨guarded, harmless⟩
    | add before payment ih =>
      rw [← before.stealthAddresses] at payment
      exact ih.1.addStealthKey ih.2 payment
  exact both.1

/-- Payments to a locked wallet only add keys without secret. -/
theorem frame_of_adds (crypted : w.fUseCrypto = true) (locked : w.isLocked = true)
    (adds : Adds crypto tx w w') : Frame w w' := by
  induction adds with
  | refl => exact Frame.refl w
  | add before payment ih =>
    refine ih.trans ?_
    unfold StealthKeys.addStealthKey
    rw [if_pos (ih.isLocked.trans locked)]
    split_ifs
    · exact Frame.refl _
    · exact frame_addWithoutSecret (ih.fUseCrypto.trans crypted)

/-! ### Events -/

inductive WalletEvent where
  | lock
  | unlock
  | addKey (key : CKey)
  | newKeyPool (keys : List CKey)
  | transaction (tx : CTransaction) (fExisted fUpdate : Bool) (generated : List CKey)

def walletStep (crypto : WalletCrypto Point) (decryptNarr : EcSecret → Bytes → Bytes → Bool)
    (passphrase : Bytes) (w : CWallet) : WalletEvent → Option CWallet
  | .lock => some (lock w).2
  | .unlock => some (unlock crypto w passphrase).2
  | .addKey key => some (addKey crypto w key).2
  | .newKeyPool keys => newKeyPool crypto w keys
  | .transaction tx fExisted fUpdate generated =>
    addToWalletIfInvolvingMe crypto decryptNarr w tx fExisted fUpdate generated

/-- The keys of an event are valid. -/
def ValidKeys (crypto : WalletCrypto Point) : WalletEvent → Prop
  | .lock => True
  | .unlock => True
  | .addKey key => CKey.isValid crypto key = true
  | .newKeyPool keys => ∀ key ∈ keys, CKey.isValid crypto key = true
  | .transaction _ _ _ generated => ∀ key ∈ generated, CKey.isValid crypto key = true

/-- The transaction of an event is harmless. -/
def HarmlessEvent (crypto : WalletCrypto Point) (w : CWallet) : WalletEvent → Prop
  | .transaction tx _ _ _ => Harmless crypto w tx
  | _ => True

include guarded in
theorem Guarded.walletStep {event : WalletEvent} (valid : ValidKeys crypto event)
    (harmless : HarmlessEvent crypto w event)
    (moved : walletStep crypto decryptNarr passphrase w event = some w') :
    Guarded crypto passphrase master plain w' := by
  cases event with
  | lock =>
    rw [← some.inj moved]
    exact guarded.lock
  | unlock =>
    rw [← some.inj moved]
    exact guarded.unlock
  | addKey key =>
    rw [← some.inj moved]
    exact guarded.addKey valid
  | newKeyPool keys => exact guarded.newKeyPool valid moved
  | transaction tx fExisted fUpdate generated =>
    change addToWalletIfInvolvingMe crypto decryptNarr w tx fExisted fUpdate generated =
      some w' at moved
    unfold addToWalletIfInvolvingMe at moved
    split_ifs at moved
    · rw [← some.inj moved]
      exact guarded
    · have found : Guarded crypto passphrase master plain
          (findStealthTransactions crypto decryptNarr w tx) :=
        guarded.adds harmless adds_findStealthTransactions
      exact found.newKeyPool valid moved

/-- Every key the wallet has can be got and is the key of its id. -/
def Usable (crypto : WalletCrypto Point) (w : CWallet) : Prop :=
  ∀ address, w.haveKey address = true →
    ∃ key, getKey crypto w address = some key ∧ keyID crypto (CKey.getPubKey crypto key) = address

theorem usable_of_allSealed (encrypted : Encrypted crypto passphrase master plain w)
    (unlocked : w.isLocked = false) (allSealed : AllSealed crypto master w) : Usable crypto w := by
  have opened := (encrypted.unlocked unlocked).1
  intro address have_
  rw [haveKey_of_crypted encrypted.crypted] at have_
  obtain ⟨entry, found⟩ := isSome_iff_exists.mp have_
  obtain ⟨key, valid, id, rfl⟩ := allSealed address entry found
  refine ⟨key, ?_, id⟩
  apply getKey_of_sealed encrypted.crypted
  · rw [opened]
    exact encrypted.size
  · exact valid
  · rw [opened]
    exact found

/-- A wallet that its passphrase opens: after `Unlock` if it is locked, every key can be used. -/
def Opens (crypto : WalletCrypto Point) (passphrase : Bytes) (w : CWallet) : Prop :=
  if w.isLocked then
    ∃ opened, unlock crypto w passphrase = (true, opened) ∧ Usable crypto opened
  else Usable crypto w

/-- The right passphrase opens the wallet after every run whose payments are harmless. -/
theorem opens_of_harmless_run {start : CWallet}
    (encrypted : Encrypted crypto passphrase master plain start)
    (distinct : (plain.map CStealthAddress.scan_pubkey).Nodup)
    (allSealed : AllSealed crypto master start)
    (reached : Reached (walletStep crypto decryptNarr passphrase)
      (fun w event => ValidKeys crypto event ∧ HarmlessEvent crypto w event) start w) :
    Opens crypto passphrase w := by
  have guarded : Guarded crypto passphrase master plain w :=
    reached.invariant (Guarded crypto passphrase master plain)
      (guarded_of_allSealed encrypted distinct allSealed)
      fun _ _ _ kept allowed moved => kept.walletStep allowed.1 allowed.2 moved
  unfold Opens
  split_ifs with locked
  · obtain ⟨opened, run, stays, unlocked, holds⟩ := guarded.unlock_locked locked
    exact ⟨opened, run, usable_of_allSealed stays unlocked holds⟩
  · rw [Bool.not_eq_true] at locked
    exact usable_of_allSealed guarded.encrypted locked (guarded.allSealed locked)

/-! ## A payment that locks the wallet -/

/-- Ids in the order of two bytes of the key, or in the opposite order. -/
def orderedHash (mask : UInt8) (vchPubKey : Bytes) : Bytes :=
  List.replicate 19 0 ++ [mask ^^^ (vchPubKey.getD 1 0 + vchPubKey.getLastD 0)]

/-- The public key of the secret 1. -/
def smallPubKey : Bytes := 2 :: (smallSecret 1).e

/-- A payment with the ephemeral secret 1 to the key with the hash. -/
def paymentTx (hash : Bytes) : CTransaction where
  nVersion := 1
  nTime := 0
  vin := []
  vout := [⟨0, opReturn :: 33 :: smallPubKey⟩, ⟨0, [0x76, 0xa9, 0x14] ++ hash ++ [0x88, 0xac]⟩]
  nLockTime := 0
  strTxComment := []
  nProdTypeID := 0

/-- The wallet after encryption. -/
def encryptedWallet (hash160 : Bytes → Bytes) (shared : EcSecret) : CWallet :=
  ((encryptWallet (residueWallet hash160 shared) (smallWallet hash160 shared) [1]
    smallDraws).map Prod.snd).getD newWallet

theorem keeps_encryptedWallet (hash160 : Bytes → Bytes) (shared : EcSecret) :
    Keeps (residueWallet hash160 shared) [1] smallDraws.vMasterKey (smallWallet hash160 shared)
      (encryptedWallet hash160 shared) := by
  obtain ⟨w, run, keeps⟩ := (unencrypted_smallWallet hash160 shared).encryptWallet_succeeds
    (good_smallDraws hash160 shared)
  rw [encryptedWallet, run]
  exact keeps

section Step
variable {Point : Type} [AddCommGroup Point] (crypto : WalletCrypto Point)
variable (decryptNarr : EcSecret → Bytes → Bytes → Bool) (passphrase : Bytes) (w : CWallet)

theorem walletStep_transaction (tx : CTransaction) :
    walletStep crypto decryptNarr passphrase w (.transaction tx false false []) =
      some (findStealthTransactions crypto decryptNarr w tx) := by
  change newKeyPool crypto (findStealthTransactions crypto decryptNarr w tx) [] = _
  unfold newKeyPool
  split_ifs <;> rfl

theorem not_opens_of_refused (locked : w.isLocked = true)
    (refused : (unlock crypto w passphrase).1 = false) : ¬ Opens crypto passphrase w := by
  unfold Opens
  rw [if_pos locked]
  intro opens
  obtain ⟨opened, run, -⟩ := opens
  rw [run] at refused
  exact absurd refused.symm Bool.false_ne_true

end Step

/-- The key of the payment has the first id: the right passphrase is refused. -/
theorem payment_locks_wallet :
    ∃ (crypto : WalletCrypto (ZMod secp256k1Order)) (passphrase master : Bytes)
      (plain : List CStealthAddress) (start w : CWallet),
      Encrypted crypto passphrase master plain start ∧
      (plain.map CStealthAddress.scan_pubkey).Nodup ∧ AllSealed crypto master start ∧
      Reached (walletStep crypto (fun _ _ _ => true) passphrase)
        (fun _ event => ValidKeys crypto event) start w ∧ ¬ Opens crypto passphrase w := by
  have keeps := keeps_encryptedWallet (orderedHash 255) (smallSecret 1)
  refine ⟨_, _, _, _, _, _, keeps.encrypted, (unencrypted_smallWallet _ _).distinct,
    keeps.allSealed, Reached.refl.call _ ?_ (walletStep_transaction _ _ _ _
      (paymentTx (orderedHash 255 (2 :: (smallSecret 2).e)))), ?_⟩
  · exact fun _ member => absurd member List.not_mem_nil
  · let crypto := residueWallet (orderedHash 255) (smallSecret 1)
    let start := encryptedWallet (orderedHash 255) (smallSecret 1)
    let cpkE : Bytes := 2 :: (smallSecret 2).e
    let paid := findStealthTransactions crypto (fun _ _ _ => true) start
      (paymentTx (orderedHash 255 cpkE))
    have adds : Adds crypto _ start paid := adds_findStealthTransactions
    have locked : start.isLocked = true := by decide +kernel
    have begins : paid.mapCryptedKeys.first = some (keyID crypto cpkE, cpkE, []) := by
      decide +kernel
    have frame := frame_of_adds keeps.encrypted.crypted locked adds
    have lockedNow := frame.isLocked.trans locked
    have refused := (keeps.encrypted.frame frame).unlock_of_empty lockedNow begins
    exact not_opens_of_refused _ _ _ lockedNow (congrArg Prod.fst refused)

/-! ## A payment that does not -/

/-- The public key of `1 + 256 ^ 31`. -/
def largePubKey : Bytes := 2 :: padded 32 (1 + 256 ^ 31)

theorem large_lt : 1 + 256 ^ 31 < secp256k1Order := by decide +kernel

theorem small_add_large : (smallSecret 1).value + largeSecret.value = 1 + 256 ^ 31 := by
  decide +kernel

section Large
variable (hash160 : Bytes → Bytes)

variable {shared : EcSecret}

theorem residueWallet_G : (residueWallet hash160 shared).G = 1 := rfl

theorem residueWallet_point2oct {P : ZMod secp256k1Order} (nonzero : P ≠ 0) :
    (residueWallet hash160 shared).point2oct true P = 2 :: padded 32 P.val :=
  residueOct_compressed nonzero

theorem smallPubKey_eq : (residueWallet hash160 shared).point2oct true
      ((smallSecret 1).value • (residueWallet hash160 shared).G) = smallPubKey := by
  have evaluated : residueOct true ((smallSecret 1).value • 1) = smallPubKey := by decide +kernel
  exact evaluated

theorem getPubKey_smallKey :
    CKey.getPubKey (residueWallet hash160 shared) smallKey = smallPubKey := by
  have evaluated : residueOct true (1 • 1) = smallPubKey := by decide +kernel
  exact evaluated

theorem smallAddress_spend_pubkey : (smallAddress hash160 shared).spend_pubkey = smallPubKey :=
  getPubKey_smallKey hash160

theorem largePubKey_eq : (residueWallet hash160 largeSecret).point2oct true
      ((smallSecret 1).value • (residueWallet hash160 largeSecret).G +
        largeSecret.value • (residueWallet hash160 largeSecret).G) = largePubKey := by
  have nonzero : ((1 + 256 ^ 31 : Nat) : ZMod secp256k1Order) ≠ 0 := by
    rw [ne_eq, ZMod.natCast_eq_zero_iff]
    exact Nat.not_dvd_of_pos_of_lt (Nat.succ_pos _) large_lt
  rw [← add_nsmul, small_add_large, residueWallet_G, nsmul_one,
    residueWallet_point2oct hash160 nonzero, ZMod.val_natCast_of_lt large_lt, largePubKey]

theorem sharedSecret_small :
    sharedSecret (residueWallet hash160 largeSecret).toCrypto (smallSecret 1) (smallSecret 1) =
      largeSecret := rfl

theorem stealthSecret_small :
    stealthSecret (residueWallet hash160 largeSecret).toCrypto (smallSecret 1) smallPubKey
      smallPubKey = some (largeSecret, largePubKey) := by
  have valid : ValidScalar (residueWallet hash160 largeSecret).toCrypto (smallSecret 1) :=
    smallSecret_valid largeSecret
  have nonzero : ((smallSecret 1).value + largeSecret.value) % secp256k1Order ≠ 0 := by
    decide +kernel
  have payment := stealthSecret_exchange valid valid valid nonzero
  rw [sharedSecret_small, largePubKey_eq, smallPubKey_eq] at payment
  exact payment

theorem largePubKey_size : isValidSize largePubKey = true := by decide +kernel

theorem extractKey_smallAddress : extractKey (residueWallet hash160 largeSecret) smallPubKey
      (smallAddress hash160 largeSecret) = some (largeSecret, largePubKey) := by
  have scan : (smallSecret 1).e = (smallAddress hash160 largeSecret).scan_secret := rfl
  apply extractKey_of_payment scan
  · rw [smallAddress_spend_pubkey]
    exact stealthSecret_small hash160
  · exact largePubKey_size

theorem longSum_small :
    LongSum (residueWallet hash160 largeSecret) (smallAddress hash160 largeSecret).spend_pubkey
      largeSecret := by
  intro spend publicKey
  obtain ⟨nonzero, bytes⟩ := (pointOut_eq_some_iff _).mp publicKey
  have valid : ValidScalar (residueWallet hash160 largeSecret).toCrypto (smallSecret 1) :=
    smallSecret_valid largeSecret
  have point : (smallSecret 1).value • (residueWallet hash160 largeSecret).G =
      spend.value • (residueWallet hash160 largeSecret).G := by
    apply some.inj
    rw [← pointIn_point2oct (residueWallet hash160 largeSecret).toCurve nonzero, ← bytes,
      smallAddress_spend_pubkey, ← smallPubKey_eq hash160]
    exact (pointIn_point2oct _ (smul_G_ne_zero _ valid.1 valid.2)).symm
  rw [residueWallet_G, nsmul_one, nsmul_one, ZMod.natCast_eq_natCast_iff'] at point
  change _ ≤ (spend.value + largeSecret.value) % secp256k1Order
  rw [Nat.add_mod, ← point, ← Nat.add_mod, small_add_large, Nat.mod_eq_of_lt large_lt]
  exact Nat.le_add_left _ _

theorem smallWallet_stealthAddresses :
    (smallWallet hash160 shared).stealthAddresses = [smallAddress hash160 shared] := rfl

theorem smallWallet_holds :
    Holds (residueWallet hash160 shared) (smallWallet hash160 shared) smallKey := by
  refine ⟨smallKey_valid hash160 shared, ?_⟩
  exact (OrderedMap.lookup_insert _ _ _ _).trans (if_pos rfl)

end Large

theorem ephemKey_paymentTx {hash : Bytes} {txout : CTxOut} (member : txout ∈ (paymentTx hash).vout)
    {vchEphemPK : Bytes} {itTxA : CScript}
    (announced : ephemKey txout.scriptPubKey = some (vchEphemPK, itTxA)) :
    vchEphemPK = smallPubKey := by
  have first : ephemKey (opReturn :: 33 :: smallPubKey) = some (smallPubKey, []) := by
    decide +kernel
  rcases List.mem_pair.mp member with rfl | rfl
  · rw [first] at announced
    exact (Prod.mk.inj (some.inj announced)).1.symm
  · exact absurd announced.symm (some_ne_none _)

theorem small_id_lt :
    uint160Of (orderedHash 0 smallPubKey) < uint160Of (orderedHash 0 largePubKey) := by
  decide +kernel

theorem harmless_paymentTx (hash : Bytes) : Harmless (residueWallet (orderedHash 0) largeSecret)
      (encryptedWallet (orderedHash 0) largeSecret) (paymentTx hash) := by
  intro locked vchEphemPK sxAddr sShared cpkE payment _
  have keeps := keeps_encryptedWallet (orderedHash 0) largeSecret
  obtain ⟨txout, member, itTxA, announced⟩ := payment.announced
  have address := payment.address
  rw [(keeps.encrypted.locked locked).2, smallWallet_stealthAddresses, List.map_singleton,
    List.mem_singleton] at address
  have extracted := payment.extracted
  rw [ephemKey_paymentTx member announced, address, extractKey_cryptAddress,
    extractKey_smallAddress] at extracted
  obtain ⟨rfl, rfl⟩ := Prod.mk.inj (some.inj extracted)
  constructor
  · have held := keeps.originals smallKey (smallWallet_holds _)
    obtain ⟨first, begins⟩ := OrderedMap.first_isSome held
    refine ⟨first, begins, lt_of_le_of_lt (OrderedMap.first_le begins held) ?_⟩
    rw [getPubKey_smallKey]
    exact small_id_lt
  · rw [address, cryptAddress_spend_pubkey]
    exact longSum_small (orderedHash 0)

theorem harmless_payment_opens :
    ∃ w, walletStep (residueWallet (orderedHash 0) largeSecret) (fun _ _ _ => true) [1]
        (encryptedWallet (orderedHash 0) largeSecret)
        (.transaction (paymentTx (orderedHash 0 largePubKey)) false false []) = some w ∧
      Opens (residueWallet (orderedHash 0) largeSecret) [1] w := by
  obtain ⟨w, moved⟩ : ∃ w, walletStep (residueWallet (orderedHash 0) largeSecret)
      (fun _ _ _ => true) [1] (encryptedWallet (orderedHash 0) largeSecret)
      (.transaction (paymentTx (orderedHash 0 largePubKey)) false false []) = some w :=
    ⟨_, walletStep_transaction _ _ _ _ _⟩
  have keeps := keeps_encryptedWallet (orderedHash 0) largeSecret
  have unencrypted := unencrypted_smallWallet (orderedHash 0) largeSecret
  refine ⟨w, moved, opens_of_harmless_run keeps.encrypted unencrypted.distinct keeps.allSealed
    (Reached.refl.call _ ?_ moved)⟩
  exact ⟨fun _ member => absurd member List.not_mem_nil, harmless_paymentTx _⟩

end SynergyWallet.UnlockRuns
