import SynergyFormal.Wallet.CryptoKeyStore
import SynergyFormal.Lib.Session

/-!
# Encrypting a wallet

`EncryptWallet`, `ChangeWalletPassphrase` and the addition of keys and stealth addresses to a
wallet that is not encrypted (`wallet.cpp`).  Encryption moves every key to `mapCryptedKeys`,
writes the sealed secrets and erases the records of the clear ones; the passphrase protects
only the master key and may change.

The master key, the salt, the keys of the new pool and the measured number of iterations are
inputs.  `exit` and exceptions are `none`.  The file is backed by a database whose transaction
is committed as a whole.
-/

set_option autoImplicit false

namespace SynergyWallet.Encryption

open SynergyLib
open Function Wire BigEndian Ordered Session SynergyData.Solver Stealth CryptoKeyStore
open Option hiding max

/-! ## EncryptWallet -/

/-- What `EncryptWallet` draws and measures. -/
structure Draws where
  vMasterKey : Bytes
  vchSalt : Bytes
  nDerivationMethodIndex : Nat
  measured : Nat
  poolKeys : List CKey
  masterSize : vMasterKey.length = walletCryptoKeySize
  saltSize : vchSalt.length = walletCryptoSaltSize

/-- `CMasterKey(nDerivationMethodIndex)`. -/
def derivationMethod (nDerivationMethodIndex : Nat) : Nat :=
  if nDerivationMethodIndex = 1 then 1 else 0

def minIterations : Nat := 25000

/-- The master key in memory and in its record. -/
def writeMasterKey (w : CWallet) (nID : Nat) (kMasterKey : CMasterKey) : CWallet :=
  { w with
    mapMasterKeys := w.mapMasterKeys.insert nID kMasterKey
    db := { w.db with mkey := Function.update w.db.mkey nID (some kMasterKey) } }

section Functions
variable {Point : Type} [AddCommGroup Point] (crypto : WalletCrypto Point)

def encryptKey (vMasterKeyIn : Bytes) (w : CWallet) (mKey : Uint160 × Bytes × Bool) :
    Option CWallet := do
  let key ← setSecret false mKey.2.1 mKey.2.2
  let vchPubKey := CKey.getPubKey crypto key
  let vchCryptedSecret ← encryptSecret crypto vMasterKeyIn key.getSecret (crypto.hash vchPubKey)
  addCryptedKey crypto w vchPubKey vchCryptedSecret

def encryptKeys (w : CWallet) (vMasterKeyIn : Bytes) : Option CWallet :=
  if !w.mapCryptedKeys.entries.isEmpty || w.fUseCrypto then none
  else do
    let w ← w.mapKeys.entries.foldlM (encryptKey crypto vMasterKeyIn) { w with fUseCrypto := true }
    return { w with mapKeys := OrderedMap.empty }

def encryptSpend (vMasterKey : Bytes) (sxAddr : CStealthAddress) : CStealthAddress :=
  match encryptSecret crypto vMasterKey (sxAddr.spend_secret.take 32)
      (crypto.hash sxAddr.spend_pubkey) with
  | none => sxAddr
  | some vchCryptedSecret => { sxAddr with spend_secret := vchCryptedSecret }

/-- The loop over the stealth addresses. -/
def encryptAddress (vMasterKey : Bytes) (sxRecords : Bytes → Option CStealthAddress)
    (sxAddr : CStealthAddress) : Bytes → Option CStealthAddress :=
  if sxAddr.scan_secret.length < 32 then sxRecords
  else Function.update sxRecords sxAddr.scan_pubkey (some (encryptSpend crypto vMasterKey sxAddr))

def encryptAddresses (w : CWallet) (vMasterKey : Bytes) : CWallet :=
  { w with
    stealthAddresses := w.stealthAddresses.map fun sxAddr =>
      if sxAddr.scan_secret.length < 32 then sxAddr else encryptSpend crypto vMasterKey sxAddr
    db := { w.db with
      sxAddr := w.stealthAddresses.foldl (encryptAddress crypto vMasterKey) w.db.sxAddr } }

/-- `GenerateNewKey` throws if the key is not added. -/
def generateNewKey (w : CWallet) (key : CKey) : Option CWallet :=
  match addKey crypto w key with
  | (false, _) => none
  | (true, w) => some w

def newKeyPool (w : CWallet) (poolKeys : List CKey) : Option CWallet :=
  if w.isLocked then some w else poolKeys.foldlM (generateNewKey crypto) w

def encryptWallet (w : CWallet) (strWalletPassphrase : Bytes) (draws : Draws) :
    Option (Bool × CWallet) :=
  if w.fUseCrypto then some (false, w)
  else
    let nDeriveIterations := max draws.measured minIterations
    let nDerivationMethod := derivationMethod draws.nDerivationMethodIndex
    match setKeyFromPassphrase crypto strWalletPassphrase draws.vchSalt nDeriveIterations
        nDerivationMethod with
    | none => some (false, w)
    | some (chKey, chIV) => do
        let kMasterKey : CMasterKey :=
          ⟨crypto.aesEncrypt chKey chIV draws.vMasterKey, draws.vchSalt, nDerivationMethod,
            nDeriveIterations⟩
        let nID := w.nMasterKeyMaxID + 1
        let w := writeMasterKey { w with nMasterKeyMaxID := nID } nID kMasterKey
        let w ← encryptKeys crypto w draws.vMasterKey
        let w := encryptAddresses crypto w draws.vMasterKey
        let w := (unlock crypto (lock w).2 strWalletPassphrase).2
        let w ← newKeyPool crypto w draws.poolKeys
        return (true, (lock w).2)

/-! ## AddStealthAddress -/

/-- `std::set::insert`: nothing is done if an address with the scan key is there. -/
def insertAddress (sxAddr : CStealthAddress) (addresses : List CStealthAddress) :
    List CStealthAddress :=
  if addresses.any fun other => other.scan_pubkey = sxAddr.scan_pubkey then addresses
  else addresses.orderedInsert (fun a b => toNum a.scan_pubkey ≤ toNum b.scan_pubkey) sxAddr

def eraseAddress (w : CWallet) (sxAddr : CStealthAddress) : CWallet :=
  { w with
    stealthAddresses := w.stealthAddresses.filter fun other =>
      other.scan_pubkey ≠ sxAddr.scan_pubkey }

def writeStealthAddress (w : CWallet) (sxAddr : CStealthAddress) : CWallet :=
  { w with
    db := { w.db with sxAddr := Function.update w.db.sxAddr sxAddr.scan_pubkey (some sxAddr) } }

def addStealthAddress (w : CWallet) (sxAddr : CStealthAddress) : Bool × CWallet :=
  let w := { w with stealthAddresses := insertAddress sxAddr w.stealthAddresses }
  let fOwned := sxAddr.scan_secret.length == 32
  if fOwned && w.isLocked then (false, eraseAddress w sxAddr)
  else if fOwned && w.fUseCrypto then
    match encryptSecret crypto w.vMasterKey (sxAddr.spend_secret.take 32)
        (crypto.hash sxAddr.spend_pubkey) with
    | none => (false, eraseAddress w sxAddr)
    | some vchCryptedSecret =>
      (true, writeStealthAddress w { sxAddr with spend_secret := vchCryptedSecret })
  else (true, writeStealthAddress w sxAddr)

/-! ## ChangeWalletPassphrase -/

/-- The loop over the master keys, from the entries that are left. -/
def changeLoop (strOld strNew : Bytes) (measured : Nat) (fWasLocked : Bool) (w : CWallet) :
    List (Nat × CMasterKey) → Bool × CWallet
  | [] => (false, w)
  | (nID, kMasterKey) :: rest =>
    match setKeyFromPassphrase crypto strOld kMasterKey.vchSalt kMasterKey.nDeriveIterations
        kMasterKey.nDerivationMethod with
    | none => (false, w)
    | some old =>
      match crypto.aesDecrypt old.1 old.2 kMasterKey.vchCryptedKey with
      | none => (false, w)
      | some vMasterKey =>
        match unlockKeyStore crypto w vMasterKey with
        | (false, w) => changeLoop strOld strNew measured fWasLocked w rest
        | (true, w) =>
          let w := unlockStealthAddresses crypto w vMasterKey
          let nDeriveIterations := max measured minIterations
          match setKeyFromPassphrase crypto strNew kMasterKey.vchSalt nDeriveIterations
              kMasterKey.nDerivationMethod with
          | none => (false, { w with
              mapMasterKeys := w.mapMasterKeys.insert nID
                { kMasterKey with nDeriveIterations } })
          | some new =>
            let changed := { kMasterKey with
              nDeriveIterations
              vchCryptedKey := crypto.aesEncrypt new.1 new.2 vMasterKey }
            let w := writeMasterKey w nID changed
            (true, if fWasLocked then (lock w).2 else w)

def changeWalletPassphrase (w : CWallet) (strOld strNew : Bytes) (measured : Nat) :
    Bool × CWallet :=
  let closed := (lock w).2
  changeLoop crypto strOld strNew measured w.isLocked closed closed.mapMasterKeys.entries

end Functions

/-! ## Wallets before encryption -/

variable {Point : Type} [AddCommGroup Point] {crypto : WalletCrypto Point}
  {passphrase master : Bytes} {original w w' : CWallet} {key : CKey} {keys : List CKey}

/-- An entry of `mapKeys` that holds a key under its own id. -/
def Clear (crypto : WalletCrypto Point) (address : Uint160) (entry : Bytes × Bool) : Prop :=
  ∃ key, CKey.isValid crypto key = true ∧ keyID crypto (CKey.getPubKey crypto key) = address ∧
    entry = (key.getSecret, key.fCompressedPubKey)

/-- The key is one of the wallet's. -/
def Holds (crypto : WalletCrypto Point) (w : CWallet) (key : CKey) : Prop :=
  CKey.isValid crypto key = true ∧
    w.mapKeys.lookup (keyID crypto (CKey.getPubKey crypto key)) =
      some (key.getSecret, key.fCompressedPubKey)

/-- A wallet that is not encrypted: keys stand under their ids, owned stealth addresses have
their spend secrets, and the database holds what the wallet holds. -/
structure Unencrypted (crypto : WalletCrypto Point) (w : CWallet) : Prop where
  crypted : w.fUseCrypto = false
  vMasterKey : w.vMasterKey = []
  mapCryptedKeys : w.mapCryptedKeys.entries = []
  mapMasterKeys : w.mapMasterKeys.entries = []
  keys : ∀ address entry, w.mapKeys.lookup address = some entry → Clear crypto address entry
  sound : ∀ sxAddr ∈ w.stealthAddresses, SoundAddress crypto sxAddr
  foreign : ∀ sxAddr ∈ w.stealthAddresses, sxAddr.scan_secret.length < 32 →
    sxAddr.spend_secret = []
  distinct : (w.stealthAddresses.map CStealthAddress.scan_pubkey).Nodup
  keyRecords : ∀ vchPubKey, w.db.key vchPubKey ≠ none ∨ w.db.wkey vchPubKey ≠ none →
    ∃ key, Holds crypto w key ∧ CKey.getPubKey crypto key = vchPubKey
  cryptedRecords : ∀ vchPubKey, w.db.ckey vchPubKey = none
  masterRecords : ∀ nID, w.db.mkey nID = none
  addressRecords : ∀ scan sxAddr, w.db.sxAddr scan = some sxAddr →
    sxAddr ∈ w.stealthAddresses ∧ sxAddr.scan_pubkey = scan

/-- A new wallet file. -/
def newWallet : CWallet where
  fUseCrypto := false
  mapKeys := OrderedMap.empty
  mapCryptedKeys := OrderedMap.empty
  vMasterKey := []
  mapMasterKeys := OrderedMap.empty
  nMasterKeyMaxID := 0
  stealthAddresses := []
  mapStealthKeyMeta _ := none
  db := ⟨fun _ => none, fun _ => none, fun _ => none, fun _ => none, fun _ => none, fun _ => none⟩

theorem unencrypted_newWallet : Unencrypted crypto newWallet where
  crypted := rfl
  vMasterKey := rfl
  mapCryptedKeys := rfl
  mapMasterKeys := rfl
  keys _ _ found := absurd found.symm (some_ne_none _)
  sound _ member := absurd member List.not_mem_nil
  foreign _ member := absurd member List.not_mem_nil
  distinct := List.nodup_nil
  keyRecords _ found := found.elim (fun key => absurd rfl key) (fun wkey => absurd rfl wkey)
  cryptedRecords _ := rfl
  masterRecords _ := rfl
  addressRecords _ _ found := absurd found.symm (some_ne_none _)

theorem Unencrypted.addKey (unencrypted : Unencrypted crypto w)
    (valid : CKey.isValid crypto key = true)
    (fresh : w.mapKeys.lookup (keyID crypto (CKey.getPubKey crypto key)) = none) :
    Unencrypted crypto (addKey crypto w key).2 := by
  have noRecord : w.db.key (CKey.getPubKey crypto key) = none := by
    by_contra found
    obtain ⟨other, held, publicKey⟩ := unencrypted.keyRecords _ (Or.inl found)
    rw [← publicKey, held.2] at fresh
    exact absurd fresh (some_ne_none _)
  have added : (CryptoKeyStore.addKey crypto w key).2 = { w with
      mapKeys := w.mapKeys.insert (keyID crypto (CKey.getPubKey crypto key))
        (key.getSecret, key.fCompressedPubKey)
      db := { w.db with
        key := update w.db.key (CKey.getPubKey crypto key) (some key) } } := by
    simp only [CryptoKeyStore.addKey, unencrypted.crypted, Bool.not_false, if_true, noRecord]
  rw [added]
  refine { unencrypted with keys := ?_, keyRecords := ?_ }
  · intro address entry found
    rw [OrderedMap.lookup_insert] at found
    split_ifs at found with here
    · exact ⟨key, valid, here.symm, (some.inj found).symm⟩
    · exact unencrypted.keys address entry found
  · intro vchPubKey record
    by_cases here : vchPubKey = CKey.getPubKey crypto key
    · refine ⟨key, ⟨valid, ?_⟩, here.symm⟩
      rw [OrderedMap.lookup_insert, if_pos rfl]
    · simp only [update_of_ne here] at record
      obtain ⟨other, held, publicKey⟩ := unencrypted.keyRecords vchPubKey record
      refine ⟨other, ⟨held.1, ?_⟩, publicKey⟩
      have differs : keyID crypto (CKey.getPubKey crypto other) ≠
          keyID crypto (CKey.getPubKey crypto key) := by
        intro same
        rw [← same, held.2] at fresh
        exact absurd fresh (some_ne_none _)
      rw [OrderedMap.lookup_insert, if_neg differs]
      exact held.2

theorem Unencrypted.addStealthAddress (unencrypted : Unencrypted crypto w)
    {sxAddr : CStealthAddress} (sound : SoundAddress crypto sxAddr)
    (foreign : sxAddr.scan_secret.length < 32 → sxAddr.spend_secret = [])
    (fresh : ∀ other ∈ w.stealthAddresses, other.scan_pubkey ≠ sxAddr.scan_pubkey) :
    Unencrypted crypto (addStealthAddress crypto w sxAddr).2 := by
  have inserted : insertAddress sxAddr w.stealthAddresses = w.stealthAddresses.orderedInsert
      (fun a b => toNum a.scan_pubkey ≤ toNum b.scan_pubkey) sxAddr := by
    rw [insertAddress, if_neg]
    simpa using fresh
  have added : (Encryption.addStealthAddress crypto w sxAddr).2 = writeStealthAddress { w with
      stealthAddresses := insertAddress sxAddr w.stealthAddresses } sxAddr := by
    simp only [Encryption.addStealthAddress, CWallet.isLocked, unencrypted.crypted,
      Bool.false_and, Bool.and_false, Bool.false_eq_true, if_false]
  have members : ∀ other, other ∈ insertAddress sxAddr w.stealthAddresses ↔
      other = sxAddr ∨ other ∈ w.stealthAddresses := by
    intro other
    rw [inserted, List.mem_orderedInsert]
  rw [added]
  refine { unencrypted with sound := ?_, foreign := ?_, distinct := ?_, addressRecords := ?_ }
  · intro other member
    rcases (members other).mp member with rfl | before
    · exact sound
    · exact unencrypted.sound other before
  · intro other member
    rcases (members other).mp member with rfl | before
    · exact foreign
    · exact unencrypted.foreign other before
  · have reordered : (insertAddress sxAddr w.stealthAddresses).Perm
        (sxAddr :: w.stealthAddresses) := by
      rw [inserted]
      exact List.perm_orderedInsert _ _ _
    refine (reordered.map CStealthAddress.scan_pubkey).nodup_iff.mpr ?_
    rw [List.map_cons, List.nodup_cons]
    refine ⟨?_, unencrypted.distinct⟩
    intro member
    obtain ⟨other, present, same⟩ := List.mem_map.mp member
    exact fresh other present same
  · intro scan other record
    simp only [writeStealthAddress, update_apply] at record
    split_ifs at record with here
    · rw [← some.inj record, here]
      exact ⟨(members sxAddr).mpr (Or.inl rfl), rfl⟩
    · have before := unencrypted.addressRecords scan other record
      exact ⟨(members other).mpr (Or.inr before.1), before.2⟩

/-! ## Many keys at once -/

/-- The wallet with sealed entries for the keys, one after another. -/
def addSealed (crypto : WalletCrypto Point) (master : Bytes) (w : CWallet) (keys : List CKey) :
    CWallet :=
  keys.foldl (fun w key =>
    withEntry crypto w (CKey.getPubKey crypto key) (sealedSecret crypto master key)) w

def AllSealed (crypto : WalletCrypto Point) (master : Bytes) (w : CWallet) : Prop :=
  ∀ address entry, w.mapCryptedKeys.lookup address = some entry →
    Sealed crypto master address entry

/-- The entry of the key holds the key. -/
def HoldsSealed (crypto : WalletCrypto Point) (master : Bytes) (w : CWallet) (key : CKey) : Prop :=
  w.mapCryptedKeys.lookup (keyID crypto (CKey.getPubKey crypto key)) =
    some (CKey.getPubKey crypto key, sealedSecret crypto master key)

/-- No other key of the list has the id of the key. -/
def NoCollision (crypto : WalletCrypto Point) (keys : List CKey) (key : CKey) : Prop :=
  ∀ other ∈ keys, keyID crypto (CKey.getPubKey crypto other) =
    keyID crypto (CKey.getPubKey crypto key) → other = key

/-- The records of encrypted keys hold no secret of 32 bytes. -/
def CipherRecords (w : CWallet) : Prop :=
  ∀ vchPubKey vchCryptedSecret, w.db.ckey vchPubKey = some vchCryptedSecret →
    vchCryptedSecret.length ≠ 32

/-- Nor do master keys, in memory or in the database. -/
def CipherMaster (w : CWallet) : Prop :=
  (∀ nID kMasterKey, w.mapMasterKeys.lookup nID = some kMasterKey →
    kMasterKey.vchCryptedKey.length ≠ 32) ∧
  ∀ nID kMasterKey, w.db.mkey nID = some kMasterKey → kMasterKey.vchCryptedKey.length ≠ 32

theorem encryptedMaster_length (size : master.length = walletCryptoKeySize) {chKey chIV : Bytes} :
    (crypto.aesEncrypt chKey chIV master).length ≠ 32 := by
  rw [crypto.aesEncrypt_length, size]
  decide

theorem CipherMaster.frame (cipher : CipherMaster w) (frame : Frame w w') : CipherMaster w' := by
  rw [CipherMaster, frame.mapMasterKeys, frame.mkey]
  exact cipher

theorem CipherMaster.writeMasterKey (cipher : CipherMaster w) (nID : Nat) {kMasterKey : CMasterKey}
    (size : kMasterKey.vchCryptedKey.length ≠ 32) :
    CipherMaster (writeMasterKey w nID kMasterKey) := by
  constructor
  · intro other found lookup
    rw [Encryption.writeMasterKey, OrderedMap.lookup_insert] at lookup
    split_ifs at lookup
    · rw [← some.inj lookup]
      exact size
    · exact cipher.1 other found lookup
  · intro other found record
    simp only [Encryption.writeMasterKey, update_apply] at record
    split_ifs at record
    · rw [← some.inj record]
      exact size
    · exact cipher.2 other found record

theorem addSealed_frame (w : CWallet) (keys : List CKey) :
    Frame w (addSealed crypto master w keys) := by
  induction keys generalizing w with
  | nil => exact Frame.refl w
  | cons key rest ih => exact withEntry_frame.trans (ih _)

theorem AllSealed.withEntry (allSealed : AllSealed crypto master w)
    (valid : CKey.isValid crypto key = true) : AllSealed crypto master
      (withEntry crypto w (CKey.getPubKey crypto key) (sealedSecret crypto master key)) := by
  intro address entry found
  rw [withEntry_lookup] at found
  split_ifs at found with here
  · exact ⟨key, valid, here.symm, (some.inj found).symm⟩
  · exact allSealed address entry found

theorem AllSealed.addSealed (allSealed : AllSealed crypto master w)
    (valid : ∀ key ∈ keys, CKey.isValid crypto key = true) :
    AllSealed crypto master (addSealed crypto master w keys) := by
  induction keys generalizing w with
  | nil => exact allSealed
  | cons key rest ih =>
    obtain ⟨here, later⟩ := List.forall_mem_cons.mp valid
    exact ih (allSealed.withEntry here) later

theorem holdsSealed_addSealed (held : HoldsSealed crypto master w key ∨ key ∈ keys)
    (noCollision : NoCollision crypto keys key) :
    HoldsSealed crypto master (addSealed crypto master w keys) key := by
  induction keys generalizing w with
  | nil => exact held.resolve_right List.not_mem_nil
  | cons first rest ih =>
    obtain ⟨here, later⟩ := List.forall_mem_cons.mp noCollision
    refine ih ?_ later
    by_cases same : keyID crypto (CKey.getPubKey crypto first) =
        keyID crypto (CKey.getPubKey crypto key)
    · left
      rw [HoldsSealed, withEntry_lookup, if_pos same.symm, here same]
    · rcases held with before | member
      · left
        rw [HoldsSealed, withEntry_lookup, if_neg (Ne.symm same)]
        exact before
      · right
        rcases List.mem_cons.mp member with isFirst | isLater
        · exact absurd (congrArg (fun k => keyID crypto (CKey.getPubKey crypto k)) isFirst.symm)
            same
        · exact isLater

theorem addSealed_clear
    (covered : ∀ vchPubKey, (w.db.key vchPubKey = none ∧ w.db.wkey vchPubKey = none) ∨
      ∃ key ∈ keys, CKey.getPubKey crypto key = vchPubKey) (vchPubKey : Bytes) :
    (addSealed crypto master w keys).db.key vchPubKey = none ∧
      (addSealed crypto master w keys).db.wkey vchPubKey = none := by
  induction keys generalizing w with
  | nil =>
    rcases covered vchPubKey with clear | impossible
    · exact clear
    · obtain ⟨_, member, _⟩ := impossible
      exact absurd member List.not_mem_nil
  | cons first rest ih =>
    apply ih
    intro other
    rcases covered other with clear | present
    · exact Or.inl (withEntry_frame.clear other clear)
    · obtain ⟨key, member, publicKey⟩ := present
      rcases List.mem_cons.mp member with isFirst | isLater
      · left
        simp only [withEntry, writeCryptedKey, ← isFirst, publicKey, update_self, and_self]
      · exact Or.inr ⟨key, isLater, publicKey⟩

theorem sealedSecret_length (valid : CKey.isValid crypto key = true) :
    (sealedSecret crypto master key).length = 48 := by
  rw [sealedSecret, crypto.aesEncrypt_length, CKey.getSecret_length valid]

theorem CipherRecords.addSealed (cipher : CipherRecords w)
    (valid : ∀ key ∈ keys, CKey.isValid crypto key = true) :
    CipherRecords (addSealed crypto master w keys) := by
  induction keys generalizing w with
  | nil => exact cipher
  | cons key rest ih =>
    obtain ⟨here, later⟩ := List.forall_mem_cons.mp valid
    refine ih ?_ later
    intro vchPubKey vchCryptedSecret record
    simp only [withEntry, writeCryptedKey, update_apply] at record
    split_ifs at record
    · rw [← some.inj record, sealedSecret_length here]
      decide
    · exact cipher vchPubKey vchCryptedSecret record

/-! ## What encryption keeps -/

/-- An encrypted wallet that holds all the original one held and shows none of it. -/
structure Keeps (crypto : WalletCrypto Point) (passphrase master : Bytes) (original w : CWallet) :
    Prop where
  encrypted : Encrypted crypto passphrase master original.stealthAddresses w
  mapKeys : w.mapKeys.entries = []
  allSealed : AllSealed crypto master w
  originals : ∀ key, Holds crypto original key → HoldsSealed crypto master w key
  clear : ∀ vchPubKey, w.db.key vchPubKey = none ∧ w.db.wkey vchPubKey = none
  cipher : CipherRecords w
  cipherMaster : CipherMaster w
  addressRecords : ∀ scan sxAddr, w.db.sxAddr scan = some sxAddr → sxAddr.spend_secret.length ≠ 32
  foreign : ∀ sxAddr ∈ original.stealthAddresses, sxAddr.scan_secret.length < 32 →
    sxAddr.spend_secret = []

theorem Keeps.state (keeps : Keeps crypto passphrase master original w) {vMasterKey : Bytes}
    {stealthAddresses : List CStealthAddress}
    (encrypted : Encrypted crypto passphrase master original.stealthAddresses
      { w with vMasterKey, stealthAddresses }) :
    Keeps crypto passphrase master original { w with vMasterKey, stealthAddresses } :=
  { keeps with encrypted }

theorem expandEntry_of_allSealed (allSealed : AllSealed crypto master w) {address : Uint160} :
    expandEntry crypto w address = w := by
  cases found : w.mapCryptedKeys.lookup address with
  | none => simp only [expandEntry, found]
  | some entry => exact expandEntry_of_sealed found (allSealed address entry found)

theorem expandAll_of_allSealed (allSealed : AllSealed crypto master w) :
    expandAll crypto w = w := by
  rw [expandAll]
  generalize w.mapCryptedKeys.keys = addresses
  induction addresses with
  | nil => rfl
  | cons address rest ih =>
    rw [List.foldl_cons, expandEntry_of_allSealed allSealed, ih]

theorem AllSealed.first (allSealed : AllSealed crypto master w) (address : Uint160)
    (entry : Bytes × Bytes) (begins : w.mapCryptedKeys.first = some (address, entry)) :
    Sealed crypto master address entry :=
  allSealed address entry (OrderedMap.lookup_first begins)

section Keeps
variable (keeps : Keeps crypto passphrase master original w)
include keeps

theorem Keeps.lockedState : Keeps crypto passphrase master original
      (lockedState crypto master original.stealthAddresses w) :=
  keeps.state keeps.encrypted.lockedState

theorem Keeps.unlockedState :
    Keeps crypto passphrase master original (unlockedState master original.stealthAddresses w) :=
  keeps.state keeps.encrypted.unlockedState

theorem Keeps.lock : Keeps crypto passphrase master original (lock w).2 := by
  rw [keeps.encrypted.lock]
  exact keeps.lockedState

theorem Keeps.unlock_locked (locked : w.isLocked = true) : unlock crypto w passphrase =
      (true, CryptoKeyStore.unlockedState master original.stealthAddresses w) := by
  rw [keeps.encrypted.unlock locked keeps.allSealed.first,
    expandAll_of_allSealed keeps.unlockedState.allSealed]

theorem Keeps.unlock : Keeps crypto passphrase master original (unlock crypto w passphrase).2 := by
  cases locked : w.isLocked with
  | true =>
    rw [keeps.unlock_locked locked]
    exact keeps.unlockedState
  | false =>
    rw [CryptoKeyStore.unlock, locked]
    exact keeps

theorem Keeps.addSealed (valid : ∀ key ∈ keys, CKey.isValid crypto key = true)
    (noCollision : ∀ key, Holds crypto original key → NoCollision crypto keys key) :
    Keeps crypto passphrase master original (addSealed crypto master w keys) :=
  have frame := addSealed_frame w keys
  { encrypted := keeps.encrypted.frame frame
    mapKeys := by
      rw [frame.mapKeys]
      exact keeps.mapKeys
    allSealed := keeps.allSealed.addSealed valid
    originals := fun key held =>
      holdsSealed_addSealed (Or.inl (keeps.originals key held)) (noCollision key held)
    clear := fun vchPubKey => frame.clear vchPubKey (keeps.clear vchPubKey)
    cipher := keeps.cipher.addSealed valid
    cipherMaster := keeps.cipherMaster.frame frame
    addressRecords := by
      rw [frame.sxAddr]
      exact keeps.addressRecords
    foreign := keeps.foreign }

end Keeps

/-! ## EncryptWallet establishes it -/

/-- The key of an entry of `mapKeys`. -/
def keyOf (mKey : Uint160 × Bytes × Bool) : CKey := ⟨toNum mKey.2.1, mKey.2.2⟩

theorem keyOf_secret (address : Uint160) (key : CKey) :
    keyOf (address, key.getSecret, key.fCompressedPubKey) = key := by
  rw [keyOf, CKey.getSecret, toNum_padded]

variable {sxAddr : CStealthAddress} {chKey chIV : Bytes}
variable (unencrypted : Unencrypted crypto w) (size : master.length = walletCryptoKeySize)

include size in
theorem encryptKey_of_clear (crypted : w.fUseCrypto = true) {mKey : Uint160 × Bytes × Bool}
    (clear : Clear crypto mKey.1 mKey.2) :
    encryptKey crypto master w mKey = some (withEntry crypto w
      (CKey.getPubKey crypto (keyOf mKey)) (sealedSecret crypto master (keyOf mKey))) := by
  obtain ⟨address, secret, flag⟩ := mKey
  obtain ⟨key, valid, -, entry⟩ := clear
  obtain ⟨rfl, rfl⟩ := Prod.mk.inj entry
  have read := setSecret_getSecret valid (Bool.or_false key.fCompressedPubKey)
  have encrypted : encryptSecret crypto master key.getSecret
      (crypto.hash (CKey.getPubKey crypto key)) = some (sealedSecret crypto master key) := by
    rw [encryptSecret, if_neg (not_not.mpr size), sealedSecret]
  simp only [encryptKey, read, bind_eq_bind, bind_some, encrypted, keyOf_secret,
    addCryptedKey_of_crypted crypted]

include size in
theorem foldlM_encryptKey (crypted : w.fUseCrypto = true) {entries : List (Uint160 × Bytes × Bool)}
    (clear : ∀ mKey ∈ entries, Clear crypto mKey.1 mKey.2) :
    entries.foldlM (encryptKey crypto master) w =
      some (addSealed crypto master w (entries.map keyOf)) := by
  induction entries generalizing w with
  | nil => rfl
  | cons mKey rest ih =>
    obtain ⟨here, later⟩ := List.forall_mem_cons.mp clear
    rw [List.foldlM_cons, encryptKey_of_clear size crypted here, bind_eq_bind, bind_some]
    exact ih crypted later

include unencrypted in
theorem Unencrypted.clear (mKey : Uint160 × Bytes × Bool) (member : mKey ∈ w.mapKeys.entries) :
    Clear crypto mKey.1 mKey.2 :=
  unencrypted.keys mKey.1 mKey.2 (OrderedMap.lookup_eq_some_iff.mpr member)

/-- The keys of the wallet, in the order of their ids. -/
def keysOf (w : CWallet) : List CKey := w.mapKeys.entries.map keyOf

include unencrypted in
theorem Unencrypted.mem_keysOf : key ∈ keysOf w ↔ Holds crypto w key := by
  constructor
  · intro member
    obtain ⟨⟨address, entry⟩, present, same⟩ := List.mem_map.mp member
    obtain ⟨other, valid, id, shape⟩ := unencrypted.clear _ present
    simp only at id shape
    rw [shape, keyOf_secret] at same
    rw [shape, ← id, same] at present
    rw [same] at valid
    exact ⟨valid, OrderedMap.lookup_eq_some_iff.mpr present⟩
  · intro held
    exact List.mem_map.mpr ⟨_, OrderedMap.lookup_eq_some_iff.mp held.2, keyOf_secret _ key⟩

include unencrypted in
theorem Unencrypted.noCollision (held : Holds crypto w key) :
    NoCollision crypto (keysOf w) key := by
  intro other member same
  have found := (unencrypted.mem_keysOf.mp member).2
  rw [same, held.2, some.injEq, Prod.mk.injEq] at found
  rw [← keyOf_secret 0 other, ← keyOf_secret 0 key, found.1, found.2]

/-! ### The stealth addresses -/

include size in
theorem encryptSpend_of_sound (sound : SoundAddress crypto sxAddr)
    (owned : ¬ sxAddr.scan_secret.length < 32) :
    encryptSpend crypto master sxAddr = cryptAddress crypto master sxAddr := by
  obtain ⟨spend, secret, -⟩ := sound owned
  have whole : sxAddr.spend_secret.take 32 = sxAddr.spend_secret := by
    rw [secret]
    exact List.take_of_length_le spend.size.le
  rw [cryptAddress, if_neg owned]
  simp only [encryptSpend, whole, encryptSecret, size, ne_eq, not_true_eq_false, if_false]

theorem cryptAddress_length (sound : SoundAddress crypto sxAddr)
    (owned : ¬ sxAddr.scan_secret.length < 32) :
    (cryptAddress crypto master sxAddr).spend_secret.length = 48 := by
  obtain ⟨spend, secret, -⟩ := sound owned
  rw [cryptAddress, if_neg owned]
  simp only [crypto.aesEncrypt_length, secret, spend.size]

variable {records : Bytes → Option CStealthAddress} {addresses : List CStealthAddress}

theorem foldl_encryptAddress_of_not_mem {scan : Bytes}
    (absent : scan ∉ addresses.map CStealthAddress.scan_pubkey) :
    addresses.foldl (encryptAddress crypto master) records scan = records scan := by
  induction addresses generalizing records with
  | nil => rfl
  | cons first rest ih =>
    rw [List.map_cons, List.mem_cons, not_or] at absent
    rw [List.foldl_cons, ih absent.2, encryptAddress]
    split_ifs
    · rfl
    · exact update_of_ne absent.1 _ _

include size in
theorem foldl_encryptAddress (sound : ∀ sxAddr ∈ addresses, SoundAddress crypto sxAddr)
    (distinct : (addresses.map CStealthAddress.scan_pubkey).Nodup) (member : sxAddr ∈ addresses) :
    addresses.foldl (encryptAddress crypto master) records sxAddr.scan_pubkey =
      if sxAddr.scan_secret.length < 32 then records sxAddr.scan_pubkey
      else some (cryptAddress crypto master sxAddr) := by
  induction addresses generalizing records with
  | nil => exact absurd member List.not_mem_nil
  | cons first rest ih =>
    obtain ⟨here, later⟩ := List.forall_mem_cons.mp sound
    obtain ⟨single, others⟩ := List.nodup_cons.mp distinct
    rw [List.foldl_cons]
    rcases List.mem_cons.mp member with isFirst | isLater
    · subst isFirst
      rw [foldl_encryptAddress_of_not_mem single, encryptAddress]
      split_ifs with foreign
      · rfl
      · rw [update_self, encryptSpend_of_sound size here foreign]
    · have other : sxAddr.scan_pubkey ≠ first.scan_pubkey := fun same =>
        single (same ▸ List.mem_map_of_mem isLater)
      have kept : encryptAddress crypto master records first sxAddr.scan_pubkey =
          records sxAddr.scan_pubkey := by
        rw [encryptAddress]
        split_ifs
        · rfl
        · exact update_of_ne other _ _
      rw [ih later others isLater, kept]

include size in
theorem encryptAddresses_stealthAddresses
    (sound : ∀ sxAddr ∈ w.stealthAddresses, SoundAddress crypto sxAddr) :
    (encryptAddresses crypto w master).stealthAddresses =
      w.stealthAddresses.map (cryptAddress crypto master) := by
  apply List.map_congr_left
  intro sxAddr member
  split_ifs with foreign
  · rw [cryptAddress, if_pos foreign]
  · exact encryptSpend_of_sound size (sound sxAddr member) foreign

/-! ### The whole call -/

include size in
theorem encryptKeys_of_clear (crypted : w.fUseCrypto = false)
    (mapCryptedKeys : w.mapCryptedKeys.entries = [])
    (clear : ∀ mKey ∈ w.mapKeys.entries, Clear crypto mKey.1 mKey.2) :
    encryptKeys crypto w master =
      some { addSealed crypto master { w with fUseCrypto := true } (keysOf w) with
        mapKeys := OrderedMap.empty } := by
  have run : w.mapKeys.entries.foldlM (encryptKey crypto master) { w with fUseCrypto := true } =
      some (addSealed crypto master { w with fUseCrypto := true } (keysOf w)) :=
    foldlM_encryptKey size rfl clear
  simp only [encryptKeys, crypted, mapCryptedKeys, List.isEmpty_nil, Bool.not_true, Bool.or_false,
    Bool.false_eq_true, if_false, run, bind_eq_bind, bind_some]
  rfl

/-- The wallet with its master key, marked as encrypted. -/
def begun (nID : Nat) (kMasterKey : CMasterKey) (w : CWallet) : CWallet :=
  { writeMasterKey { w with nMasterKeyMaxID := nID } nID kMasterKey with fUseCrypto := true }

/-- The wallet after the encryption of keys and addresses, before it is locked. -/
def encryptedState (crypto : WalletCrypto Point) (master : Bytes) (nID : Nat)
    (kMasterKey : CMasterKey) (w : CWallet) : CWallet :=
  encryptAddresses crypto
    { addSealed crypto master (begun nID kMasterKey w) (keysOf w) with
      mapKeys := OrderedMap.empty } master

variable {nID : Nat} {kMasterKey : CMasterKey}

include unencrypted size in
theorem Unencrypted.encryptKeys :
    encryptKeys crypto (writeMasterKey { w with nMasterKeyMaxID := nID } nID kMasterKey) master =
      some { addSealed crypto master (begun nID kMasterKey w) (keysOf w) with
        mapKeys := OrderedMap.empty } :=
  encryptKeys_of_clear size unencrypted.crypted unencrypted.mapCryptedKeys unencrypted.clear

theorem encryptedState_sxAddr : (encryptedState crypto master nID kMasterKey w).db.sxAddr =
      w.stealthAddresses.foldl (encryptAddress crypto master) w.db.sxAddr := by
  have frame : Frame (begun nID kMasterKey w)
      (addSealed crypto master (begun nID kMasterKey w) (keysOf w)) := addSealed_frame _ _
  change (addSealed crypto master (begun nID kMasterKey w) (keysOf w)).stealthAddresses.foldl
    (encryptAddress crypto master)
    (addSealed crypto master (begun nID kMasterKey w) (keysOf w)).db.sxAddr = _
  rw [frame.stealthAddresses, frame.sxAddr]
  rfl

include unencrypted in
theorem Unencrypted.first_masterKey :
    (w.mapMasterKeys.insert nID kMasterKey).first = some (nID, kMasterKey) := by
  rw [OrderedMap.first_eq_some_iff]
  refine ⟨[], ?_⟩
  change insertIn nID kMasterKey w.mapMasterKeys.entries = [(nID, kMasterKey)]
  rw [unencrypted.mapMasterKeys, insertIn]

variable (derived : setKeyFromPassphrase crypto passphrase kMasterKey.vchSalt
    kMasterKey.nDeriveIterations kMasterKey.nDerivationMethod = some (chKey, chIV))
  (decrypted : crypto.aesDecrypt chKey chIV kMasterKey.vchCryptedKey = some master)

include unencrypted size derived decrypted in
theorem Unencrypted.encrypted : Encrypted crypto passphrase master w.stealthAddresses
      (encryptedState crypto master nID kMasterKey w) := by
  have frame : Frame (begun nID kMasterKey w)
      (addSealed crypto master (begun nID kMasterKey w) (keysOf w)) := addSealed_frame _ _
  refine ⟨frame.fUseCrypto, size, ⟨nID, kMasterKey, chKey, chIV, ?_, derived, decrypted⟩,
    Or.inl ⟨?_, ?_⟩, unencrypted.sound, ?_⟩
  · exact (congrArg OrderedMap.first frame.mapMasterKeys).trans unencrypted.first_masterKey
  · exact frame.vMasterKey.trans unencrypted.vMasterKey
  · have sound := unencrypted.sound
    have kept : (addSealed crypto master (begun nID kMasterKey w) (keysOf w)).stealthAddresses =
        w.stealthAddresses := frame.stealthAddresses
    rw [← kept] at sound ⊢
    exact encryptAddresses_stealthAddresses size sound
  · intro sxAddr member owned
    rw [encryptedState_sxAddr, foldl_encryptAddress size unencrypted.sound
      unencrypted.distinct member, if_neg owned]

include unencrypted size in
theorem Unencrypted.addressRecords_encryptedState (scan : Bytes) (record : CStealthAddress)
    (found : (encryptedState crypto master nID kMasterKey w).db.sxAddr scan = some record) :
    record.spend_secret.length ≠ 32 := by
  rw [encryptedState_sxAddr] at found
  by_cases present : scan ∈ w.stealthAddresses.map CStealthAddress.scan_pubkey
  · obtain ⟨sxAddr, member, rfl⟩ := List.mem_map.mp present
    rw [foldl_encryptAddress size unencrypted.sound unencrypted.distinct member] at found
    split_ifs at found with foreign
    · -- the record of a foreign address is the address itself
      obtain ⟨inMemory, scanKey⟩ := unencrypted.addressRecords _ _ found
      have same : record = sxAddr :=
        List.inj_on_of_nodup_map unencrypted.distinct inMemory member scanKey
      rw [same, unencrypted.foreign sxAddr member foreign]
      decide
    · rw [← some.inj found, cryptAddress_length (unencrypted.sound sxAddr member) foreign]
      decide
  · rw [foldl_encryptAddress_of_not_mem present] at found
    obtain ⟨inMemory, scanKey⟩ := unencrypted.addressRecords _ _ found
    exact absurd (scanKey ▸ List.mem_map_of_mem inMemory) present

include unencrypted size derived decrypted in
theorem Unencrypted.keeps (cipherSize : kMasterKey.vchCryptedKey.length ≠ 32) :
    Keeps crypto passphrase master w (encryptedState crypto master nID kMasterKey w) := by
  have valid : ∀ key ∈ keysOf w, CKey.isValid crypto key = true := fun key member =>
    (unencrypted.mem_keysOf.mp member).1
  have noEntry : AllSealed crypto master (begun nID kMasterKey w) := by
    intro address entry found
    have member := OrderedMap.lookup_eq_some_iff.mp found
    change (address, entry) ∈ w.mapCryptedKeys.entries at member
    rw [unencrypted.mapCryptedKeys] at member
    exact absurd member List.not_mem_nil
  have noRecord : CipherRecords (begun nID kMasterKey w) := by
    intro vchPubKey vchCryptedSecret record
    have absent : some vchCryptedSecret = none :=
      record.symm.trans (unencrypted.cryptedRecords vchPubKey)
    exact absurd absent (some_ne_none _)
  have newMaster : CipherMaster (begun nID kMasterKey w) := by
    refine CipherMaster.writeMasterKey ⟨?_, ?_⟩ nID cipherSize
    · intro other found lookup
      have member := OrderedMap.lookup_eq_some_iff.mp lookup
      rw [unencrypted.mapMasterKeys] at member
      exact absurd member List.not_mem_nil
    · intro other found record
      have absent : some found = none := record.symm.trans (unencrypted.masterRecords other)
      exact absurd absent (some_ne_none _)
  have masterOnly : CipherMaster (addSealed crypto master (begun nID kMasterKey w) (keysOf w)) :=
    newMaster.frame (addSealed_frame _ _)
  refine
    { encrypted := unencrypted.encrypted size derived decrypted
      mapKeys := rfl
      allSealed := noEntry.addSealed valid
      originals := ?_
      clear := ?_
      cipher := noRecord.addSealed valid
      cipherMaster := masterOnly
      addressRecords := unencrypted.addressRecords_encryptedState size
      foreign := unencrypted.foreign }
  · intro key held
    apply holdsSealed_addSealed
    · exact Or.inr (unencrypted.mem_keysOf.mpr held)
    · exact unencrypted.noCollision held
  · apply addSealed_clear
    intro vchPubKey
    by_cases absent : w.db.key vchPubKey = none ∧ w.db.wkey vchPubKey = none
    · exact Or.inl absent
    · right
      obtain ⟨key, held, publicKey⟩ := unencrypted.keyRecords vchPubKey (not_and_or.mp absent)
      exact ⟨key, unencrypted.mem_keysOf.mpr held, publicKey⟩

/-! ## The calls -/

section Calls
variable (keeps : Keeps crypto passphrase master original w)

theorem foldlM_generateNewKey {plain : List CStealthAddress}
    (encrypted : Encrypted crypto passphrase master plain w)
    (unlocked : w.isLocked = false) :
    keys.foldlM (generateNewKey crypto) w = some (addSealed crypto master w keys) := by
  induction keys generalizing w with
  | nil => rfl
  | cons key rest ih =>
    have added : generateNewKey crypto w key = some (withEntry crypto w
        (CKey.getPubKey crypto key) (sealedSecret crypto master key)) := by
      rw [generateNewKey, encrypted.addKey unlocked]
    rw [List.foldlM_cons, added, bind_eq_bind, bind_some]
    exact ih (encrypted.frame withEntry_frame) unlocked

/-- The keys `NewKeyPool` generates: valid, and none with the id of another key of the wallet. -/
structure GoodDraws (crypto : WalletCrypto Point) (original : CWallet) (draws : Draws) : Prop where
  valid : ∀ key ∈ draws.poolKeys, CKey.isValid crypto key = true
  noCollision : ∀ key, Holds crypto original key → NoCollision crypto draws.poolKeys key

variable {draws : Draws} {measured : Nat} {newPassphrase : Bytes}

include keeps in
theorem Keeps.newKeyPool (good : GoodDraws crypto original draws) :
    ∃ w', newKeyPool crypto w draws.poolKeys = some w' ∧
      Keeps crypto passphrase master original w' := by
  unfold Encryption.newKeyPool
  cases locked : w.isLocked with
  | true => exact ⟨w, if_pos rfl, keeps⟩
  | false =>
    refine ⟨_, foldlM_generateNewKey keeps.encrypted locked, ?_⟩
    exact keeps.addSealed good.valid good.noCollision

theorem setKeyFromPassphrase_isSome {strKeyData chSalt : Bytes}
    (saltSize : chSalt.length = walletCryptoSaltSize) {nDerivationMethodIndex : Nat} :
    ∃ chKey chIV, setKeyFromPassphrase crypto strKeyData chSalt (max measured minIterations)
      (derivationMethod nDerivationMethodIndex) = some (chKey, chIV) := by
  have rounds : ¬ (max measured minIterations < 1 ∨ chSalt.length ≠ walletCryptoSaltSize) := by
    rw [not_or, not_lt, not_not]
    exact ⟨(by decide : 1 ≤ minIterations).trans (le_max_right _ _), saltSize⟩
  rw [setKeyFromPassphrase, if_neg rounds, derivationMethod]
  split_ifs <;> first | exact ⟨_, _, rfl⟩ | contradiction

theorem Unencrypted.encryptWallet_succeeds (unencrypted : Unencrypted crypto original)
    (good : GoodDraws crypto original draws) {strWalletPassphrase : Bytes} :
    ∃ w, encryptWallet crypto original strWalletPassphrase draws = some (true, w) ∧
      Keeps crypto strWalletPassphrase draws.vMasterKey original w := by
  obtain ⟨chKey, chIV, derived⟩ : ∃ chKey chIV, setKeyFromPassphrase crypto strWalletPassphrase
      draws.vchSalt (max draws.measured minIterations)
      (derivationMethod draws.nDerivationMethodIndex) = some (chKey, chIV) :=
    setKeyFromPassphrase_isSome draws.saltSize
  have encrypted : Keeps crypto strWalletPassphrase draws.vMasterKey original
      (encryptedState crypto draws.vMasterKey (original.nMasterKeyMaxID + 1)
        ⟨crypto.aesEncrypt chKey chIV draws.vMasterKey, draws.vchSalt,
          derivationMethod draws.nDerivationMethodIndex, max draws.measured minIterations⟩
        original) :=
    unencrypted.keeps draws.masterSize derived (crypto.aesDecrypt_aesEncrypt _ _ _)
      (encryptedMaster_length draws.masterSize)
  obtain ⟨pooled, pool, kept⟩ := encrypted.lock.unlock.newKeyPool good
  refine ⟨_, ?_, kept.lock⟩
  unfold Encryption.encryptWallet
  rw [if_neg (Bool.not_eq_true _ ▸ unencrypted.crypted)]
  simp only [derived]
  rw [unencrypted.encryptKeys draws.masterSize, bind_eq_bind, bind_some, bind_eq_some_iff]
  exact ⟨pooled, pool, rfl⟩

/-! ### Changing the passphrase -/

include keeps in
theorem Keeps.writeMasterKey {changed : CMasterKey}
    (first : w.mapMasterKeys.first = some (nID, kMasterKey))
    (derived : setKeyFromPassphrase crypto newPassphrase changed.vchSalt
      changed.nDeriveIterations changed.nDerivationMethod = some (chKey, chIV))
    (decrypted : crypto.aesDecrypt chKey chIV changed.vchCryptedKey = some master)
    (cipherSize : changed.vchCryptedKey.length ≠ 32) :
    Keeps crypto newPassphrase master original (writeMasterKey w nID changed) :=
  { keeps with
    cipherMaster := keeps.cipherMaster.writeMasterKey nID cipherSize
    encrypted :=
      { keeps.encrypted with
        masterKey := ⟨nID, changed, chKey, chIV, OrderedMap.first_insert_first first,
          derived, decrypted⟩ } }

include keeps in
theorem Keeps.unlockStealthAddresses : unlockStealthAddresses crypto
        { CryptoKeyStore.lockedState crypto master original.stealthAddresses w with
          vMasterKey := master } master =
      CryptoKeyStore.unlockedState master original.stealthAddresses w := by
  have restored := map_decryptSpend keeps.encrypted.size keeps.encrypted.sound
  have expanded := expandAll_of_allSealed keeps.unlockedState.allSealed
  rw [CryptoKeyStore.unlockStealthAddresses]
  simp only [CryptoKeyStore.lockedState, restored]
  exact expanded

include keeps in
theorem Keeps.changeWalletPassphrase
    (run : changeWalletPassphrase crypto w passphrase newPassphrase measured = (true, w')) :
    Keeps crypto newPassphrase master original w' := by
  unfold Encryption.changeWalletPassphrase at run
  rw [keeps.encrypted.lock] at run
  have locked := keeps.lockedState
  obtain ⟨nID, kMasterKey, chKey, chIV, first, derived, decrypted⟩ := locked.encrypted.masterKey
  obtain ⟨rest, entries⟩ := OrderedMap.first_eq_some_iff.mp first
  simp only [entries, changeLoop, derived, decrypted,
    unlockKeyStore_of_sealed locked.encrypted.crypted keeps.encrypted.size
      locked.allSealed.first, keeps.unlockStealthAddresses] at run
  split at run
  · exact absurd (congrArg Prod.fst run) Bool.false_ne_true
  · rename_i new rederived
    have written : Keeps crypto newPassphrase master original (Encryption.writeMasterKey
          (CryptoKeyStore.unlockedState master original.stealthAddresses w) nID
          { kMasterKey with
            nDeriveIterations := max measured minIterations
            vchCryptedKey := crypto.aesEncrypt new.1 new.2 master }) :=
      keeps.unlockedState.writeMasterKey first rederived (crypto.aesDecrypt_aesEncrypt _ _ _)
        (encryptedMaster_length keeps.encrypted.size)
    rw [← (Prod.mk.inj run).2]
    split_ifs
    · exact written.lock
    · exact written

/-! ### Runs -/

/-- What is called with the passphrase of the wallet. -/
inductive Call where
  | lock
  | unlock
  | changeWalletPassphrase (strNew : Bytes) (measured : Nat)

/-- The passphrase and the wallet after a call; a refused change of the passphrase is none. -/
def step (crypto : WalletCrypto Point) (state : Bytes × CWallet) : Call → Option (Bytes × CWallet)
  | .lock => some (state.1, (lock state.2).2)
  | .unlock => some (state.1, (unlock crypto state.2 state.1).2)
  | .changeWalletPassphrase strNew measured =>
    match changeWalletPassphrase crypto state.2 state.1 strNew measured with
    | (false, _) => none
    | (true, w) => some (strNew, w)

theorem Keeps.step {state next : Bytes × CWallet} {call : Call}
    (keeps : Keeps crypto state.1 master original state.2)
    (moved : step crypto state call = some next) : Keeps crypto next.1 master original next.2 := by
  cases call with
  | lock =>
    rw [← some.inj moved]
    exact keeps.lock
  | unlock =>
    rw [← some.inj moved]
    exact keeps.unlock
  | changeWalletPassphrase strNew measured =>
    unfold Encryption.step at moved
    simp only at moved
    split at moved
    · exact absurd moved.symm (some_ne_none _)
    · rename_i changed
      rw [← some.inj moved]
      exact keeps.changeWalletPassphrase changed

/-- No secret key in clear, in memory or in the database.  Lengths say it: the secret of a
key, a spend secret and the master key have 32 bytes, so bytes of another length are none. -/
structure Hidden (w : CWallet) : Prop where
  mapKeys : w.mapKeys.entries = []
  vMasterKey : w.vMasterKey = []
  mapCryptedKeys : ∀ address entry, w.mapCryptedKeys.lookup address = some entry →
    entry.2.length ≠ 32
  stealthAddresses : ∀ sxAddr ∈ w.stealthAddresses, sxAddr.spend_secret.length ≠ 32
  keyRecords : ∀ vchPubKey, w.db.key vchPubKey = none ∧ w.db.wkey vchPubKey = none
  cryptedRecords : CipherRecords w
  masterKeys : CipherMaster w
  addressRecords : ∀ scan sxAddr, w.db.sxAddr scan = some sxAddr → sxAddr.spend_secret.length ≠ 32

/-- Every key and every stealth address of the original wallet is there again. -/
structure Restored (crypto : WalletCrypto Point) (original w : CWallet) : Prop where
  keys : ∀ address vchSecret fCompressed,
    original.mapKeys.lookup address = some (vchSecret, fCompressed) →
    ∃ key, getKey crypto w address = some key ∧ key.getSecret = vchSecret ∧
      key.fCompressedPubKey = fCompressed
  stealthAddresses : w.stealthAddresses = original.stealthAddresses

include keeps in
theorem Keeps.hidden :
    Hidden (CryptoKeyStore.lockedState crypto master original.stealthAddresses w) where
  mapKeys := keeps.mapKeys
  vMasterKey := rfl
  mapCryptedKeys address entry found := by
    obtain ⟨key, valid, -, rfl⟩ := keeps.allSealed address entry found
    rw [sealedSecret_length valid]
    decide
  stealthAddresses sxAddr member := by
    obtain ⟨clear, present, rfl⟩ := List.mem_map.mp member
    by_cases foreign : clear.scan_secret.length < 32
    · rw [cryptAddress, if_pos foreign, keeps.foreign clear present foreign]
      decide
    · rw [cryptAddress_length (keeps.encrypted.sound clear present) foreign]
      decide
  keyRecords := keeps.clear
  cryptedRecords := keeps.cipher
  masterKeys := keeps.cipherMaster
  addressRecords := keeps.addressRecords

include keeps in
theorem Keeps.restored (unencrypted : Unencrypted crypto original) :
    Restored crypto original (CryptoKeyStore.unlockedState master original.stealthAddresses w) where
  keys address vchSecret fCompressed found := by
    obtain ⟨key, valid, rfl, entry⟩ := unencrypted.keys address _ found
    obtain ⟨rfl, rfl⟩ := Prod.mk.inj entry
    refine ⟨key, ?_, rfl, rfl⟩
    apply getKey_of_sealed
    · exact keeps.encrypted.crypted
    · exact keeps.encrypted.size
    · exact valid
    · exact keeps.originals key ⟨valid, found⟩
  stealthAddresses := rfl

/-- Encryption loses nothing and hides everything, under the first passphrase and under every
later one. -/
theorem encryptWallet_hides_and_restores {draws : Draws} {current : Bytes}
    (unencrypted : Unencrypted crypto original) (good : GoodDraws crypto original draws)
    (run : encryptWallet crypto original passphrase draws = some (true, w))
    (reached : Reached (step crypto) (fun _ _ => True) (passphrase, w) (current, w')) :
    Hidden (lock w').2 ∧ ∃ opened, unlock crypto (lock w').2 current = (true, opened) ∧
      Restored crypto original opened := by
  obtain ⟨encrypted, succeeds, first⟩ := unencrypted.encryptWallet_succeeds good
  obtain ⟨-, rfl⟩ := Prod.mk.inj (some.inj (succeeds.symm.trans run))
  have keeps : Keeps crypto current draws.vMasterKey original w' :=
    reached.invariant (fun state => Keeps crypto state.1 draws.vMasterKey original state.2) first
      fun _ _ _ kept _ moved => kept.step moved
  rw [keeps.encrypted.lock]
  refine ⟨keeps.hidden, _, ?_, keeps.lockedState.restored unencrypted⟩
  exact keeps.lockedState.unlock_locked keeps.encrypted.isLocked_lockedState

end Calls

/-! ## A wallet to compute with -/

section Small
variable (hash160 : Bytes → Bytes) (shared : EcSecret)

def smallKey : CKey := ⟨1, true⟩

theorem smallKey_valid : CKey.isValid (residueWallet hash160 shared) smallKey = true := by
  have small : 1 < secp256k1Order := by decide +kernel
  exact CKey.isValid_iff.mpr ⟨Nat.one_pos, small⟩

def smallAddress : CStealthAddress :=
  let publicKey := CKey.getPubKey (residueWallet hash160 shared) smallKey
  ⟨publicKey, publicKey, (smallSecret 1).e, (smallSecret 1).e⟩

/-- A wallet with a key and a stealth address, both of the secret 1. -/
def smallWallet : CWallet :=
  let crypto := residueWallet hash160 shared
  (addStealthAddress crypto (addKey crypto newWallet smallKey).2 (smallAddress hash160 shared)).2

theorem unencrypted_smallWallet :
    Unencrypted (residueWallet hash160 shared) (smallWallet hash160 shared) := by
  apply Unencrypted.addStealthAddress
  · apply unencrypted_newWallet.addKey
    · exact smallKey_valid hash160 shared
    · rfl
  · intro _
    exact ⟨smallSecret 1, rfl, (smallSecret_valid shared).publicKey⟩
  · intro foreign
    have owned : ¬ (smallSecret 1).e.length < 32 := by decide
    exact absurd foreign owned
  · intro other member
    exact absurd member List.not_mem_nil

def smallDraws : Draws where
  vMasterKey := List.replicate 32 7
  vchSalt := List.replicate 8 1
  nDerivationMethodIndex := 1
  measured := 0
  poolKeys := []
  masterSize := rfl
  saltSize := rfl

theorem good_smallDraws :
    GoodDraws (residueWallet hash160 shared) (smallWallet hash160 shared) smallDraws :=
  ⟨fun _ member => absurd member List.not_mem_nil,
    fun _ _ _ member => absurd member List.not_mem_nil⟩

end Small

abbrev smallCrypto : WalletCrypto (ZMod secp256k1Order) := residueWallet id (smallSecret 1)

abbrev startWallet : CWallet := smallWallet id (smallSecret 1)

/-- Two keys for the pool, one of them uncompressed. -/
def pooledDraws : Draws := { smallDraws with poolKeys := [⟨2, true⟩, ⟨3, false⟩] }

theorem good_pooledDraws : GoodDraws smallCrypto startWallet pooledDraws where
  valid := by decide +kernel
  noCollision key held other member same := by
    have absent : ∀ other ∈ pooledDraws.poolKeys,
        startWallet.mapKeys.lookup
          (keyID smallCrypto (CKey.getPubKey smallCrypto other)) = none := by
      decide +kernel
    have found := held.2
    rw [← same, absent other member] at found
    exact absurd found.symm (some_ne_none _)

/-- The pool is filled, and the passphrase is changed while the wallet is open. -/
theorem smallWallet_hides_and_restores :
    ∃ w w' opened, encryptWallet smallCrypto startWallet [1] pooledDraws = some (true, w) ∧
      changeWalletPassphrase smallCrypto (unlock smallCrypto w [1]).2 [1] [2, 3] 0 = (true, w') ∧
      Hidden (lock w').2 ∧ unlock smallCrypto (lock w').2 [2, 3] = (true, opened) ∧
      Restored smallCrypto startWallet opened := by
  have unencrypted := unencrypted_smallWallet id (smallSecret 1)
  obtain ⟨w, run, -⟩ := unencrypted.encryptWallet_succeeds good_pooledDraws
  have changes : ((encryptWallet smallCrypto startWallet [1] pooledDraws).map fun answer =>
      (changeWalletPassphrase smallCrypto (unlock smallCrypto answer.2 [1]).2 [1] [2, 3] 0).1) =
        some true := by
    decide +kernel
  obtain ⟨w', changed⟩ : ∃ w', changeWalletPassphrase smallCrypto
      (unlock smallCrypto w [1]).2 [1] [2, 3] 0 = (true, w') := by
    rw [run] at changes
    exact ⟨_, Prod.ext (some.inj changes) rfl⟩
  have reached : Reached (step smallCrypto) (fun _ _ => True) ([1], w) ([2, 3], w') := by
    refine (Reached.refl.call .unlock trivial rfl).call (.changeWalletPassphrase [2, 3] 0)
      trivial ?_
    unfold step
    simp only [changed]
  obtain ⟨hidden, opened, unlocks, restored⟩ :=
    encryptWallet_hides_and_restores unencrypted good_pooledDraws run reached
  exact ⟨w, w', opened, run, changed, hidden, unlocks, restored⟩

end SynergyWallet.Encryption
