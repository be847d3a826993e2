import SynergyFormal.Wallet.Stealth
import SynergyFormal.Primitives.Solver
import SynergyFormal.Lib.Ordered

/-!
# Encrypted keys

`CKey`, `CCrypter`, `CCryptoKeyStore` and the functions of `CWallet` that lock, unlock and add
keys (`key.cpp`, `crypter.cpp`, `keystore.cpp`, `wallet.cpp`).  An encrypted wallet keeps each
secret under the master key, with the hash of the public key as initialization vector.
Unlocking tries the master key on the first entry of the map only.

A key object is its private number and the form of its public key; `GetKey` is called with a new
one.  Exceptions and `exit` are `none`.  Database writes, AES and allocations do not fail.  Key
metadata, address book and pool records hold no secret and are left out.
-/

set_option autoImplicit false

namespace SynergyWallet.CryptoKeyStore

open SynergyLib
open List Option Wire BigEndian Ordered SynergyData.Solver Stealth

/-! ## What the wallet calls but does not define -/

structure WalletCrypto (Point : Type) [AddCommGroup Point] extends Crypto Point where
  hash160 : Bytes → Bytes
  /-- `Hash`, used as initialization vector. -/
  hash : Bytes → Bytes
  /-- `o2i_ECPublicKey`. -/
  oct2point : Bytes → Option Point
  oct2point_point2oct : ∀ compressed, ∀ P ≠ 0, oct2point (point2oct compressed P) = some P
  /-- AES-256-CBC with key and initialization vector. -/
  aesEncrypt : Bytes → Bytes → Bytes → Bytes
  aesDecrypt : Bytes → Bytes → Bytes → Option Bytes
  aesDecrypt_aesEncrypt : ∀ chKey chIV plaintext,
    aesDecrypt chKey chIV (aesEncrypt chKey chIV plaintext) = some plaintext
  aesDecrypt_nil : ∀ chKey chIV, aesDecrypt chKey chIV [] = none
  /-- The last block is always padded. -/
  aesEncrypt_length : ∀ chKey chIV plaintext,
    (aesEncrypt chKey chIV plaintext).length = (plaintext.length / 16 + 1) * 16
  /-- `EVP_BytesToKey` with SHA-512: key and initialization vector from a text, a salt and a
  number of rounds. -/
  bytesToKey : Bytes → Bytes → Nat → Bytes × Bytes
  scryptHash : Bytes → Bytes → Nat → Bytes

def walletCryptoKeySize : Nat := 32
def walletCryptoSaltSize : Nat := 8

/-! ## CKey -/

structure CKey where
  priv : Nat
  fCompressedPubKey : Bool

def CKey.getSecret (key : CKey) : Bytes := padded 32 key.priv

section Functions
variable {Point : Type} [AddCommGroup Point] (crypto : WalletCrypto Point)

def CKey.getPubKey (key : CKey) : Bytes :=
  crypto.point2oct key.fCompressedPubKey (key.priv • crypto.G)

/-- `CKey::IsValid`: the private number is below the order and its point is not infinity. -/
def CKey.isValid (key : CKey) : Bool := decide (0 < key.priv) && decide (key.priv < crypto.order)

def keyID (vchPubKey : Bytes) : Uint160 := uint160Of (crypto.hash160 vchPubKey)

/-- The flag of a new key after `SetPubKey`; a point that cannot be read resets the key. -/
def setPubKey (vchPubKey : Bytes) : Bool :=
  match crypto.oct2point vchPubKey with
  | some _ => vchPubKey.length == 33
  | none => false

/-- `SetSecret` on a key with the given flag; a secret of another size throws. -/
def setSecret (fCompressedPubKey : Bool) (vchSecret : Bytes) (fCompressed : Bool) : Option CKey :=
  if vchSecret.length ≠ 32 then none
  else some ⟨toNum vchSecret, fCompressed || fCompressedPubKey⟩

/-! ## CCrypter -/

structure CMasterKey where
  vchCryptedKey : Bytes
  vchSalt : Bytes
  nDerivationMethod : Nat
  nDeriveIterations : Nat

/-- The key and the initialization vector. -/
def setKeyFromPassphrase (strKeyData chSalt : Bytes) (nRounds nDerivationMethod : Nat) :
    Option (Bytes × Bytes) :=
  if nRounds < 1 ∨ chSalt.length ≠ walletCryptoSaltSize then none
  else if nDerivationMethod = 0 then some (crypto.bytesToKey strKeyData chSalt nRounds)
  else if nDerivationMethod = 1 then
    some (crypto.bytesToKey (crypto.scryptHash strKeyData chSalt nRounds) chSalt nRounds)
  else none

def encryptSecret (vMasterKey vchPlaintext nIV : Bytes) : Option Bytes :=
  if vMasterKey.length ≠ walletCryptoKeySize then none
  else some (crypto.aesEncrypt vMasterKey nIV vchPlaintext)

def decryptSecret (vMasterKey vchCiphertext nIV : Bytes) : Option Bytes :=
  if vMasterKey.length ≠ walletCryptoKeySize then none
  else crypto.aesDecrypt vMasterKey nIV vchCiphertext

/-! ## The wallet -/

structure CStealthAddress where
  scan_pubkey : Bytes
  spend_pubkey : Bytes
  scan_secret : Bytes
  spend_secret : Bytes

structure CStealthKeyMetadata where
  pkEphem : Bytes
  pkScan : Bytes

/-- The records of the wallet database that hold keys. -/
structure WalletDB where
  key : Bytes → Option CKey
  wkey : Bytes → Option CKey
  ckey : Bytes → Option Bytes
  mkey : Nat → Option CMasterKey
  sxAddr : Bytes → Option CStealthAddress
  sxKeyMeta : Uint160 → Option CStealthKeyMetadata

structure CWallet where
  fUseCrypto : Bool
  mapKeys : OrderedMap Uint160 (Bytes × Bool)
  mapCryptedKeys : OrderedMap Uint160 (Bytes × Bytes)
  vMasterKey : Bytes
  mapMasterKeys : OrderedMap Nat CMasterKey
  nMasterKeyMaxID : Nat
  /-- In the order of the set; `operator <` compares scan keys. -/
  stealthAddresses : List CStealthAddress
  mapStealthKeyMeta : Uint160 → Option CStealthKeyMetadata
  db : WalletDB

def CWallet.isLocked (w : CWallet) : Bool := w.fUseCrypto && w.vMasterKey.isEmpty

def CWallet.haveKey (w : CWallet) (address : Uint160) : Bool :=
  if w.fUseCrypto then (w.mapCryptedKeys.lookup address).isSome
  else (w.mapKeys.lookup address).isSome

def setCrypted (w : CWallet) : Option CWallet :=
  if w.fUseCrypto then some w
  else if !w.mapKeys.entries.isEmpty then none
  else some { w with fUseCrypto := true }

/-- What `Unlock` and `GetKey` make of an entry of `mapCryptedKeys`. -/
def openKey (vMasterKey vchPubKey vchCryptedSecret : Bytes) : Option CKey := do
  let vchSecret ← decryptSecret crypto vMasterKey vchCryptedSecret (crypto.hash vchPubKey)
  setSecret (setPubKey crypto vchPubKey) vchSecret false

def getKey (w : CWallet) (address : Uint160) : Option CKey :=
  if w.fUseCrypto then do
    let (vchPubKey, vchCryptedSecret) ← w.mapCryptedKeys.lookup address
    openKey crypto w.vMasterKey vchPubKey vchCryptedSecret
  else do
    let (vchSecret, fCompressed) ← w.mapKeys.lookup address
    setSecret false vchSecret fCompressed

/-- `WriteCryptedKey`. -/
def writeCryptedKey (db : WalletDB) (vchPubKey vchCryptedSecret : Bytes) : WalletDB :=
  { db with
    ckey := Function.update db.ckey vchPubKey (some vchCryptedSecret)
    key := Function.update db.key vchPubKey none
    wkey := Function.update db.wkey vchPubKey none }

def addCryptedKey (w : CWallet) (vchPubKey vchCryptedSecret : Bytes) : Option CWallet := do
  let w ← setCrypted w
  return { w with
    mapCryptedKeys := w.mapCryptedKeys.insert (keyID crypto vchPubKey)
      (vchPubKey, vchCryptedSecret)
    db := writeCryptedKey w.db vchPubKey vchCryptedSecret }

/-- Without encryption the record of a key that is there is not written again. -/
def addKey (w : CWallet) (key : CKey) : Bool × CWallet :=
  let vchPubKey := CKey.getPubKey crypto key
  if !w.fUseCrypto then
    let added := { w with
      mapKeys := w.mapKeys.insert (keyID crypto vchPubKey) (key.getSecret, key.fCompressedPubKey) }
    match w.db.key vchPubKey with
    | some _ => (false, added)
    | none => (true, { added with
        db := { w.db with key := Function.update w.db.key vchPubKey (some key) } })
  else if w.isLocked then (false, w)
  else
    let added := do
      let vchCryptedSecret ← encryptSecret crypto w.vMasterKey key.getSecret
        (crypto.hash vchPubKey)
      addCryptedKey crypto w vchPubKey vchCryptedSecret
    match added with
    | none => (false, w)
    | some w => (true, w)

/-! ## Locking and unlocking -/

/-- The spend secret as the database has it. -/
def recrypt (db : WalletDB) (sxAddr : CStealthAddress) : CStealthAddress :=
  if sxAddr.scan_secret.length < 32 then sxAddr
  else
    match db.sxAddr sxAddr.scan_pubkey with
    | none => sxAddr
    | some sxAddrTemp => { sxAddr with spend_secret := sxAddrTemp.spend_secret }

def lockKeyStore (w : CWallet) : Bool × CWallet :=
  match setCrypted w with
  | none => (false, w)
  | some w => (true, { w with vMasterKey := [] })

def lock (w : CWallet) : Bool × CWallet :=
  if w.isLocked then (true, w)
  else lockKeyStore { w with stealthAddresses := w.stealthAddresses.map (recrypt w.db) }

/-- `CCryptoKeyStore::Unlock`. -/
def unlockKeyStore (w : CWallet) (vMasterKeyIn : Bytes) : Bool × CWallet :=
  match setCrypted w with
  | none => (false, w)
  | some w =>
    match w.mapCryptedKeys.first with
    | none => (true, { w with vMasterKey := vMasterKeyIn })
    | some (_, vchPubKey, vchCryptedSecret) =>
      match openKey crypto vMasterKeyIn vchPubKey vchCryptedSecret with
      | none => (false, w)
      | some key =>
        -- the loop ends with the first key, right or wrong
        if CKey.getPubKey crypto key = vchPubKey then
          (true, { w with vMasterKey := vMasterKeyIn })
        else (false, w)

def ecSecret? (bytes : Bytes) : Option EcSecret :=
  if exact : bytes.length = 32 then some ⟨bytes, exact⟩ else none

/-- The first loop of `UnlockStealthAddresses`. -/
def decryptSpend (vMasterKeyIn : Bytes) (sxAddr : CStealthAddress) : CStealthAddress :=
  if sxAddr.scan_secret.length < 32 then sxAddr
  else
    let spend := do
      let vchSecret ← decryptSecret crypto vMasterKeyIn sxAddr.spend_secret
        (crypto.hash sxAddr.spend_pubkey)
      ecSecret? vchSecret
    match spend with
    | none => sxAddr
    | some testSecret =>
      if secretToPublicKey crypto.toCurve testSecret ≠ some sxAddr.spend_pubkey then sxAddr
      else { sxAddr with spend_secret := testSecret.e }

/-- The key of a payment that came while the wallet was locked. -/
def expandedKey (w : CWallet) (pubKey : Bytes) : Option CKey := do
  let sxKeyMeta ← w.mapStealthKeyMeta (keyID crypto pubKey)
  let sxAddr ← w.stealthAddresses.find? fun sxAddr => sxAddr.scan_pubkey = sxKeyMeta.pkScan
  let sSpend ← ecSecret? sxAddr.spend_secret
  let sScan ← ecSecret? sxAddr.scan_secret
  let sSpendR ← stealthSecretSpend crypto.toCrypto sScan sxKeyMeta.pkEphem sSpend
  let _ ← secretToPublicKey crypto.toCurve sSpendR
  let ckey ← setSecret false sSpendR.e true
  let cpkT := CKey.getPubKey crypto ckey
  if isValidSize cpkT && cpkT == pubKey && CKey.isValid crypto ckey then some ckey else none

/-- The second loop, at one entry.  The key goes under the id of its entry. -/
def expandEntry (w : CWallet) (address : Uint160) : CWallet :=
  match w.mapCryptedKeys.lookup address with
  | some (pubKey, []) =>
    match expandedKey crypto w pubKey with
    | none => w
    | some ckey =>
      match addKey crypto w ckey with
      | (false, w) => w
      | (true, w) => { w with
          db := { w.db with
            sxKeyMeta := Function.update w.db.sxKeyMeta (keyID crypto pubKey) none } }
  | _ => w

/-- Always returns true. -/
def unlockStealthAddresses (w : CWallet) (vMasterKeyIn : Bytes) : CWallet :=
  let decrypted := { w with
    stealthAddresses := w.stealthAddresses.map (decryptSpend crypto vMasterKeyIn) }
  decrypted.mapCryptedKeys.keys.foldl (expandEntry crypto) decrypted

/-- Only the first master key is tried. -/
def unlock (w : CWallet) (strWalletPassphrase : Bytes) : Bool × CWallet :=
  if !w.isLocked then (false, w)
  else
    match w.mapMasterKeys.first with
    | none => (true, unlockStealthAddresses crypto w [])
    | some (_, kMasterKey) =>
      match setKeyFromPassphrase crypto strWalletPassphrase kMasterKey.vchSalt
          kMasterKey.nDeriveIterations kMasterKey.nDerivationMethod with
      | none => (false, w)
      | some (chKey, chIV) =>
        match crypto.aesDecrypt chKey chIV kMasterKey.vchCryptedKey with
        | none => (false, w)
        | some vMasterKey =>
          match unlockKeyStore crypto w vMasterKey with
          | (false, w) => (false, w)
          | (true, w) => (true, unlockStealthAddresses crypto w vMasterKey)

end Functions

/-! ## Sealed keys -/

variable {Point : Type} [AddCommGroup Point] {crypto : WalletCrypto Point} {key : CKey}
  {passphrase master : Bytes} {sxAddr : CStealthAddress} {plain : List CStealthAddress}
  {w w' : CWallet}
variable (size : master.length = walletCryptoKeySize) (valid : CKey.isValid crypto key = true)

theorem CKey.isValid_iff :
    CKey.isValid crypto key = true ↔ 0 < key.priv ∧ key.priv < crypto.order := by
  rw [CKey.isValid, Bool.and_eq_true, decide_eq_true_eq, decide_eq_true_eq]

include valid in
theorem CKey.point_ne_zero : key.priv • crypto.G ≠ 0 := by
  rw [CKey.isValid_iff] at valid
  exact smul_G_ne_zero crypto.toCurve valid.1 valid.2

include valid in
theorem CKey.getSecret_length : key.getSecret.length = 32 :=
  padded_length ((CKey.isValid_iff.mp valid).2.trans crypto.order_lt)

theorem point2oct_length {P : Point} (nonzero : P ≠ 0) {compressed : Bool} :
    (crypto.point2oct compressed P).length = if compressed then 33 else 65 := by
  cases compressed with
  | true =>
    obtain ⟨tag, x, -, bytes, size⟩ := crypto.point2oct_compressed P nonzero
    rw [bytes, length_cons, size]
    rfl
  | false => exact crypto.point2oct_uncompressed P nonzero

include valid in
theorem setPubKey_getPubKey :
    setPubKey crypto (CKey.getPubKey crypto key) = key.fCompressedPubKey := by
  have nonzero := CKey.point_ne_zero valid
  have size : (crypto.point2oct key.fCompressedPubKey (key.priv • crypto.G)).length =
      if key.fCompressedPubKey then 33 else 65 := point2oct_length nonzero
  rw [setPubKey, CKey.getPubKey, crypto.oct2point_point2oct _ _ nonzero]
  simp only [size]
  cases key.fCompressedPubKey <;> rfl

/-- The entry of a key under a master key. -/
def sealedSecret (crypto : WalletCrypto Point) (master : Bytes) (key : CKey) : Bytes :=
  crypto.aesEncrypt master (crypto.hash (CKey.getPubKey crypto key)) key.getSecret

theorem sealedSecret_ne_nil : sealedSecret crypto master key ≠ [] := by
  intro empty
  have size := crypto.aesEncrypt_length master (crypto.hash (CKey.getPubKey crypto key))
    key.getSecret
  rw [← sealedSecret, empty, length_nil] at size
  omega

include valid in
theorem setSecret_getSecret {flag fCompressed : Bool}
    (form : (fCompressed || flag) = key.fCompressedPubKey) :
    setSecret flag key.getSecret fCompressed = some key := by
  rw [setSecret, if_neg (not_not.mpr (CKey.getSecret_length valid)), form, CKey.getSecret,
    toNum_padded]

include size valid in
theorem openKey_sealedSecret :
    openKey crypto master (CKey.getPubKey crypto key) (sealedSecret crypto master key) =
      some key := by
  have opened : decryptSecret crypto master (sealedSecret crypto master key)
      (crypto.hash (CKey.getPubKey crypto key)) = some key.getSecret := by
    rw [decryptSecret, if_neg (not_not.mpr size), sealedSecret, crypto.aesDecrypt_aesEncrypt]
  rw [openKey, opened, setPubKey_getPubKey valid]
  exact setSecret_getSecret valid (Bool.false_or _)

/-- An entry that holds a key under its own id. -/
def Sealed (crypto : WalletCrypto Point) (master : Bytes) (address : Uint160)
    (entry : Bytes × Bytes) : Prop :=
  ∃ key, CKey.isValid crypto key = true ∧ keyID crypto (CKey.getPubKey crypto key) = address ∧
    entry = (CKey.getPubKey crypto key, sealedSecret crypto master key)

/-! ## Sealed spend secrets -/

/-- The address with its spend secret encrypted, if it is owned. -/
def cryptAddress (crypto : WalletCrypto Point) (master : Bytes) (sxAddr : CStealthAddress) :
    CStealthAddress :=
  if sxAddr.scan_secret.length < 32 then sxAddr
  else { sxAddr with
    spend_secret := crypto.aesEncrypt master (crypto.hash sxAddr.spend_pubkey)
      sxAddr.spend_secret }

/-- An owned address has the secret of its spend key. -/
def SoundAddress (crypto : WalletCrypto Point) (sxAddr : CStealthAddress) : Prop :=
  ¬ sxAddr.scan_secret.length < 32 → ∃ spend : EcSecret, sxAddr.spend_secret = spend.e ∧
    secretToPublicKey crypto.toCurve spend = some sxAddr.spend_pubkey

theorem ecSecret?_e {secret : EcSecret} : ecSecret? secret.e = some secret :=
  dif_pos secret.size

include size in
theorem decryptSpend_cryptAddress (sound : SoundAddress crypto sxAddr) :
    decryptSpend crypto master (cryptAddress crypto master sxAddr) = sxAddr := by
  by_cases foreign : sxAddr.scan_secret.length < 32
  · rw [cryptAddress, if_pos foreign, decryptSpend, if_pos foreign]
  · obtain ⟨spend, secret, publicKey⟩ := sound foreign
    have opened : decryptSecret crypto master (crypto.aesEncrypt master
        (crypto.hash sxAddr.spend_pubkey) sxAddr.spend_secret)
        (crypto.hash sxAddr.spend_pubkey) = some spend.e := by
      rw [decryptSecret, if_neg (not_not.mpr size), crypto.aesDecrypt_aesEncrypt, secret]
    simp only [cryptAddress, if_neg foreign, decryptSpend, opened, bind_eq_bind,
      bind_some, ecSecret?_e, publicKey, ne_eq, not_true_eq_false, if_false]
    rw [← secret]

theorem recrypt_eq_cryptAddress {db : WalletDB}
    (record : ¬ sxAddr.scan_secret.length < 32 →
      db.sxAddr sxAddr.scan_pubkey = some (cryptAddress crypto master sxAddr)) :
    recrypt db sxAddr = cryptAddress crypto master sxAddr := by
  by_cases foreign : sxAddr.scan_secret.length < 32
  · rw [recrypt, if_pos foreign, cryptAddress, if_pos foreign]
  · rw [recrypt, if_neg foreign, record foreign, cryptAddress, if_neg foreign]

/-! ## Encrypted wallets -/

/-- An encrypted wallet whose master key the passphrase gives, with its stealth addresses as
they are when the wallet is unlocked. -/
structure Encrypted (crypto : WalletCrypto Point) (passphrase master : Bytes)
    (plain : List CStealthAddress) (w : CWallet) : Prop where
  crypted : w.fUseCrypto = true
  size : master.length = walletCryptoKeySize
  masterKey : ∃ nID kMasterKey chKey chIV, w.mapMasterKeys.first = some (nID, kMasterKey) ∧
    setKeyFromPassphrase crypto passphrase kMasterKey.vchSalt kMasterKey.nDeriveIterations
      kMasterKey.nDerivationMethod = some (chKey, chIV) ∧
    crypto.aesDecrypt chKey chIV kMasterKey.vchCryptedKey = some master
  addresses : w.vMasterKey = [] ∧ w.stealthAddresses = plain.map (cryptAddress crypto master) ∨
    w.vMasterKey = master ∧ w.stealthAddresses = plain
  sound : ∀ sxAddr ∈ plain, SoundAddress crypto sxAddr
  records : ∀ sxAddr ∈ plain, ¬ sxAddr.scan_secret.length < 32 →
    w.db.sxAddr sxAddr.scan_pubkey = some (cryptAddress crypto master sxAddr)

/-- What stays when keys come to an encrypted wallet. -/
structure Frame (w w' : CWallet) : Prop where
  fUseCrypto : w'.fUseCrypto = w.fUseCrypto
  mapKeys : w'.mapKeys = w.mapKeys
  vMasterKey : w'.vMasterKey = w.vMasterKey
  mapMasterKeys : w'.mapMasterKeys = w.mapMasterKeys
  stealthAddresses : w'.stealthAddresses = w.stealthAddresses
  sxAddr : w'.db.sxAddr = w.db.sxAddr
  mkey : w'.db.mkey = w.db.mkey
  clear : ∀ vchPubKey, w.db.key vchPubKey = none ∧ w.db.wkey vchPubKey = none →
    w'.db.key vchPubKey = none ∧ w'.db.wkey vchPubKey = none

theorem Frame.refl (w : CWallet) : Frame w w :=
  ⟨rfl, rfl, rfl, rfl, rfl, rfl, rfl, fun _ clear => clear⟩

theorem Frame.trans {w'' : CWallet} (first : Frame w w') (second : Frame w' w'') : Frame w w'' where
  fUseCrypto := second.fUseCrypto.trans first.fUseCrypto
  mapKeys := second.mapKeys.trans first.mapKeys
  vMasterKey := second.vMasterKey.trans first.vMasterKey
  mapMasterKeys := second.mapMasterKeys.trans first.mapMasterKeys
  stealthAddresses := second.stealthAddresses.trans first.stealthAddresses
  sxAddr := second.sxAddr.trans first.sxAddr
  mkey := second.mkey.trans first.mkey
  clear vchPubKey clear := second.clear vchPubKey (first.clear vchPubKey clear)

theorem Frame.isLocked (frame : Frame w w') : w'.isLocked = w.isLocked := by
  rw [CWallet.isLocked, CWallet.isLocked, frame.fUseCrypto, frame.vMasterKey]

variable (encrypted : Encrypted crypto passphrase master plain w)

section Encrypted
include encrypted

theorem Encrypted.frame (frame : Frame w w') : Encrypted crypto passphrase master plain w' where
  crypted := frame.fUseCrypto.trans encrypted.crypted
  size := encrypted.size
  masterKey := by
    rw [frame.mapMasterKeys]
    exact encrypted.masterKey
  addresses := by
    rw [frame.vMasterKey, frame.stealthAddresses]
    exact encrypted.addresses
  sound := encrypted.sound
  records := by
    rw [frame.sxAddr]
    exact encrypted.records

theorem Encrypted.master_ne_nil : master ≠ [] := by
  intro empty
  have size := encrypted.size
  rw [empty] at size
  exact absurd size (by decide)

theorem Encrypted.locked (locked : w.isLocked = true) :
    w.vMasterKey = [] ∧ w.stealthAddresses = plain.map (cryptAddress crypto master) := by
  rcases encrypted.addresses with closed | opened
  · exact closed
  · rw [CWallet.isLocked, encrypted.crypted, opened.1, Bool.true_and, List.isEmpty_iff] at locked
    exact absurd locked encrypted.master_ne_nil

theorem Encrypted.unlocked (unlocked : w.isLocked = false) :
    w.vMasterKey = master ∧ w.stealthAddresses = plain := by
  rcases encrypted.addresses with closed | opened
  · rw [CWallet.isLocked, encrypted.crypted, closed.1] at unlocked
    exact absurd unlocked (by decide)
  · exact opened

end Encrypted

theorem setCrypted_of_crypted (crypted : w.fUseCrypto = true) : setCrypted w = some w :=
  if_pos crypted

/-! ## Adding keys -/

/-- The wallet with one more entry. -/
def withEntry (crypto : WalletCrypto Point) (w : CWallet) (vchPubKey vchCryptedSecret : Bytes) :
    CWallet :=
  { w with
    mapCryptedKeys := w.mapCryptedKeys.insert (keyID crypto vchPubKey)
      (vchPubKey, vchCryptedSecret)
    db := writeCryptedKey w.db vchPubKey vchCryptedSecret }

variable {vchCryptedSecret vchPubKey : Bytes} {address : Uint160}

theorem addCryptedKey_of_crypted (crypted : w.fUseCrypto = true) :
    addCryptedKey crypto w vchPubKey vchCryptedSecret =
      some (withEntry crypto w vchPubKey vchCryptedSecret) := by
  rw [addCryptedKey, setCrypted_of_crypted crypted]
  rfl

theorem withEntry_frame : Frame w (withEntry crypto w vchPubKey vchCryptedSecret) := by
  refine ⟨rfl, rfl, rfl, rfl, rfl, rfl, rfl, fun other clear => ?_⟩
  simp only [withEntry, writeCryptedKey, Function.update_apply, clear, ite_self, and_self]

theorem withEntry_lookup :
    (withEntry crypto w vchPubKey vchCryptedSecret).mapCryptedKeys.lookup address =
      if address = keyID crypto vchPubKey then some (vchPubKey, vchCryptedSecret)
      else w.mapCryptedKeys.lookup address :=
  OrderedMap.lookup_insert w.mapCryptedKeys _ _ _

include encrypted in
theorem Encrypted.addKey (unlocked : w.isLocked = false) (key : CKey) :
    CryptoKeyStore.addKey crypto w key =
      (true, withEntry crypto w (CKey.getPubKey crypto key) (sealedSecret crypto master key)) := by
  have opened := (encrypted.unlocked unlocked).1
  have secret : encryptSecret crypto w.vMasterKey key.getSecret
      (crypto.hash (CKey.getPubKey crypto key)) = some (sealedSecret crypto master key) := by
    rw [opened, encryptSecret, if_neg (not_not.mpr encrypted.size), sealedSecret]
  simp only [CryptoKeyStore.addKey, encrypted.crypted, unlocked, Bool.not_true, Bool.false_eq_true,
    if_false, secret, bind_eq_bind, bind_some,
    addCryptedKey_of_crypted encrypted.crypted]

theorem addKey_of_locked (locked : w.isLocked = true) :
    CryptoKeyStore.addKey crypto w key = (false, w) := by
  have crypted : w.fUseCrypto = true := by
    rw [CWallet.isLocked, Bool.and_eq_true] at locked
    exact locked.1
  simp only [CryptoKeyStore.addKey, crypted, locked, Bool.not_true, Bool.false_eq_true, if_false,
    if_true]

/-! ## Locking and unlocking an encrypted wallet -/

def lockedState (crypto : WalletCrypto Point) (master : Bytes) (plain : List CStealthAddress)
    (w : CWallet) : CWallet :=
  { w with vMasterKey := [], stealthAddresses := plain.map (cryptAddress crypto master) }

def unlockedState (master : Bytes) (plain : List CStealthAddress) (w : CWallet) : CWallet :=
  { w with vMasterKey := master, stealthAddresses := plain }

section Encrypted
include encrypted

theorem Encrypted.lockedState :
    Encrypted crypto passphrase master plain (lockedState crypto master plain w) :=
  ⟨encrypted.crypted, encrypted.size, encrypted.masterKey, Or.inl ⟨rfl, rfl⟩, encrypted.sound,
    encrypted.records⟩

theorem Encrypted.unlockedState :
    Encrypted crypto passphrase master plain (unlockedState master plain w) :=
  ⟨encrypted.crypted, encrypted.size, encrypted.masterKey, Or.inr ⟨rfl, rfl⟩, encrypted.sound,
    encrypted.records⟩

theorem Encrypted.isLocked_lockedState :
    (CryptoKeyStore.lockedState crypto master plain w).isLocked = true := by
  rw [CWallet.isLocked, CryptoKeyStore.lockedState, encrypted.crypted]
  rfl

theorem Encrypted.isLocked_unlockedState :
    (CryptoKeyStore.unlockedState master plain w).isLocked = false := by
  rw [CWallet.isLocked, CryptoKeyStore.unlockedState, encrypted.crypted, Bool.true_and,
    isEmpty_eq_false_iff]
  exact encrypted.master_ne_nil

theorem Encrypted.lock :
    CryptoKeyStore.lock w = (true, CryptoKeyStore.lockedState crypto master plain w) := by
  unfold CryptoKeyStore.lock
  cases locked : w.isLocked with
  | true =>
    obtain ⟨closed, addresses⟩ := encrypted.locked locked
    rw [if_pos rfl, CryptoKeyStore.lockedState, ← closed, ← addresses]
  | false =>
    have recrypted : w.stealthAddresses.map (recrypt w.db) =
        plain.map (cryptAddress crypto master) := by
      rw [(encrypted.unlocked locked).2]
      apply map_congr_left
      intro sxAddr member
      exact recrypt_eq_cryptAddress (encrypted.records sxAddr member)
    rw [if_neg Bool.false_ne_true, recrypted, lockKeyStore]
    simp only [setCrypted, encrypted.crypted, if_true, CryptoKeyStore.lockedState]

end Encrypted

theorem unlockKeyStore_of_sealed (crypted : w.fUseCrypto = true)
    (size : master.length = walletCryptoKeySize)
    (begins : ∀ address entry, w.mapCryptedKeys.first = some (address, entry) →
      Sealed crypto master address entry) :
    unlockKeyStore crypto w master = (true, { w with vMasterKey := master }) := by
  unfold unlockKeyStore
  rw [setCrypted_of_crypted crypted]
  cases begin : w.mapCryptedKeys.first with
  | none => simp only [begin]
  | some first =>
    obtain ⟨address, entry⟩ := first
    obtain ⟨key, valid, -, holds⟩ := begins address entry begin
    simp only [begin, holds, openKey_sealedSecret size valid, if_true]

include size in
theorem map_decryptSpend (sound : ∀ sxAddr ∈ plain, SoundAddress crypto sxAddr) :
    (plain.map (cryptAddress crypto master)).map (decryptSpend crypto master) = plain := by
  rw [List.map_map]
  conv_rhs => rw [← List.map_id plain]
  apply map_congr_left
  intro sxAddr member
  exact decryptSpend_cryptAddress size (sound sxAddr member)

/-- Keys without secret are expanded in the order of their ids. -/
def expandAll (crypto : WalletCrypto Point) (w : CWallet) : CWallet :=
  w.mapCryptedKeys.keys.foldl (expandEntry crypto) w

theorem expandEntry_of_sealed {entry : Bytes × Bytes}
    (found : w.mapCryptedKeys.lookup address = some entry)
    (holds : Sealed crypto master address entry) : expandEntry crypto w address = w := by
  obtain ⟨key, -, -, rfl⟩ := holds
  unfold expandEntry
  rw [found]
  split
  · rename_i pubKey same
    exact absurd (congrArg Prod.snd (some.inj same)) sealedSecret_ne_nil
  · rfl

include encrypted in
theorem Encrypted.unlock (locked : w.isLocked = true)
    (begins : ∀ address entry, w.mapCryptedKeys.first = some (address, entry) →
      Sealed crypto master address entry) :
    CryptoKeyStore.unlock crypto w passphrase =
      (true, expandAll crypto (CryptoKeyStore.unlockedState master plain w)) := by
  obtain ⟨nID, kMasterKey, chKey, chIV, first, derived, decrypted⟩ := encrypted.masterKey
  have addresses := (encrypted.locked locked).2
  have restored := map_decryptSpend encrypted.size encrypted.sound
  simp only [CryptoKeyStore.unlock, locked, Bool.not_true, Bool.false_eq_true, if_false, first,
    derived, decrypted, unlockKeyStore_of_sealed encrypted.crypted encrypted.size begins,
    unlockStealthAddresses, addresses, restored, expandAll, CryptoKeyStore.unlockedState]

include encrypted in
theorem Encrypted.unlock_of_empty (locked : w.isLocked = true)
    (begins : w.mapCryptedKeys.first = some (address, vchPubKey, [])) :
    CryptoKeyStore.unlock crypto w passphrase = (false, w) := by
  obtain ⟨nID, kMasterKey, chKey, chIV, first, derived, decrypted⟩ := encrypted.masterKey
  have closed : openKey crypto master vchPubKey [] = none := by
    rw [openKey, decryptSecret, if_neg (not_not.mpr encrypted.size), crypto.aesDecrypt_nil]
    rfl
  have refused : unlockKeyStore crypto w master = (false, w) := by
    simp only [unlockKeyStore, setCrypted_of_crypted encrypted.crypted, begins, closed]
  simp only [CryptoKeyStore.unlock, locked, Bool.not_true, Bool.false_eq_true, if_false, first,
    derived, decrypted, refused]

theorem getKey_of_sealed (crypted : w.fUseCrypto = true)
    (size : w.vMasterKey.length = walletCryptoKeySize) (valid : CKey.isValid crypto key = true)
    (found : w.mapCryptedKeys.lookup address =
      some (CKey.getPubKey crypto key, sealedSecret crypto w.vMasterKey key)) :
    getKey crypto w address = some key := by
  simp only [getKey, crypted, if_true, found, bind_eq_bind, bind_some,
    openKey_sealedSecret size valid]

/-! ## A cryptography to compute with -/

/-- Blocks of 16 bytes, the last one filled with the number of bytes that are missing. -/
def padBlocks (plaintext : Bytes) : Bytes :=
  let missing := 16 - plaintext.length % 16
  plaintext ++ List.replicate missing (UInt8.ofNat missing)

def unpadBlocks (ciphertext : Bytes) : Option Bytes :=
  ciphertext.getLast?.map fun missing => ciphertext.take (ciphertext.length - missing.toNat)

theorem padBlocks_length (plaintext : Bytes) :
    (padBlocks plaintext).length = (plaintext.length / 16 + 1) * 16 := by
  rw [padBlocks, length_append, length_replicate]
  omega

theorem unpadBlocks_padBlocks (plaintext : Bytes) :
    unpadBlocks (padBlocks plaintext) = some plaintext := by
  have positive : 0 < 16 - plaintext.length % 16 := by omega
  have small : 16 - plaintext.length % 16 < 2 ^ 8 := by omega
  have last : (padBlocks plaintext).getLast? = some (UInt8.ofNat (16 - plaintext.length % 16)) := by
    rw [padBlocks, List.getLast?_append, List.getLast?_replicate, if_neg positive.ne']
    rfl
  rw [unpadBlocks, last, map_some, UInt8.toNat_ofNat_of_lt' small, padBlocks,
    length_append, length_replicate, Nat.add_sub_cancel, take_left]

def byteSum (bytes : Bytes) : UInt8 := bytes.foldl UInt8.add 0

/-- The residues with a hash of keys and one shared secret.  The cipher pads and then adds the
sum of the key and the vector to each byte. -/
def residueWallet (hash160 : Bytes → Bytes) (shared : EcSecret) :
    WalletCrypto (ZMod secp256k1Order) where
  toCrypto := constantHash shared
  hash160 := hash160
  hash := id
  oct2point bytes := some (toNum bytes.tail : ZMod secp256k1Order)
  oct2point_point2oct compressed P nonzero := by
    change some ((toNum (residueOct compressed P).tail : Nat) : ZMod secp256k1Order) = some P
    rw [residueOct, if_neg nonzero]
    cases compressed with
    | true => simp only [if_true, List.tail_cons, toNum_padded, ZMod.natCast_zmod_val]
    | false =>
      simp only [Bool.false_eq_true, if_false, List.tail_cons, toNum_padded,
        ZMod.natCast_zmod_val]
  aesEncrypt chKey chIV plaintext := (padBlocks plaintext).map (· + byteSum (chKey ++ chIV))
  aesDecrypt chKey chIV ciphertext := unpadBlocks (ciphertext.map (· - byteSum (chKey ++ chIV)))
  aesDecrypt_aesEncrypt chKey chIV plaintext := by
    simp only [List.map_map, Function.comp_def, UInt8.add_sub_cancel, List.map_id',
      unpadBlocks_padBlocks]
  aesDecrypt_nil _ _ := rfl
  aesEncrypt_length _ _ plaintext := by rw [List.length_map, padBlocks_length]
  bytesToKey strKeyData chSalt _ := (strKeyData, chSalt)
  scryptHash strKeyData chSalt _ := strKeyData ++ chSalt

end SynergyWallet.CryptoKeyStore
