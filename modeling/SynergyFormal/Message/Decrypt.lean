import SynergyFormal.Message.SecureMsg

/-!
# Decrypting a secure message

`SecureMsgDecrypt`.  The plaintext carries its own layout: a first byte of 250 for a message
without sender, otherwise the sender's address and signature, then the length of the text
and the text, compressed if it is longer than 128 bytes.  Nothing relates that length to
what was decrypted.

The library functions are parameters.  A read outside the header, the payload or the
plaintext, a write outside `msg.vchMessage`, the subscript of a vector that has no
elements and `GetPubKey` on a key without a point are `none`.  The sender's public key
that `SecureMsgInsertAddress` stores is left out.
-/

set_option autoImplicit false

namespace SynergyMessage.Decrypt

open SynergyLib
open Option Wire Slices SecureMsg

structure MsgCrypto extends MsgEnv where
  /-- The secret of an address of the wallet. -/
  getKey : String → Option Bytes
  /-- The key R, if it is a valid compressed public key. -/
  setPubKey : Bytes → Option Bytes
  /-- `ECDH_compute_key`, if it yields 32 bytes. -/
  ecdh : Bytes → Bytes → Option Bytes
  sha512 : Bytes → Bytes
  /-- AES-256-CBC under a key and an initialisation vector. -/
  aesDecrypt : Bytes → Bytes → Bytes → Option Bytes
  /-- `LZ4_decompress_safe`: the result, and what it writes. -/
  lz4 : Bytes → Int → Int × Bytes
  lz4_bounded : ∀ source maxOutputSize, (lz4 source maxOutputSize).2.length ≤ maxOutputSize.toNat
  /-- Whether a vector of this size can be allocated. -/
  canResize : Nat → Bool
  hash : Bytes → Bytes
  /-- `SetCompactSignature`: the valid public key a signature of a hash leads to. -/
  recover : Bytes → Bytes → Option Bytes
  getID : Bytes → Bytes
  /-- The valid address of a key id. -/
  address : Bytes → Option String

structure MessageData where
  timestamp : Int
  sFromAddress : String
  vchMessage : Bytes

def noMessage : MessageData := ⟨0, "", []⟩

/-! ## The plaintext -/

def fromAnonymous (vchPayload : Bytes) : Bool := vchPayload.take 1 == [250]

/-- Where the text starts; its length is the word before it. -/
def plainHeaderLen (vchPayload : Bytes) : Nat :=
  if fromAnonymous vchPayload then 9 else smsgPlHdrLen

/-- The sender's address has to be that of the key which signed the text.  The result of
`SetCompactSignature` is not looked at: after a failure `GetPubKey` reads a null point. -/
def checkSender (crypto : MsgCrypto) (vchPayload : Bytes) (msg : MessageData) :
    Option (Nat × MessageData) := do
  let ckidFrom ← slice vchPayload 1 20
  match crypto.address ckidFrom with
  | none => return (1, msg)
  | some coinAddrFrom =>
    let vchSig ← slice vchPayload (1 + 20) 65
    let cpkFromSig ← crypto.recover (crypto.hash msg.vchMessage.dropLast) vchSig
    if crypto.getID cpkFromSig ≠ ckidFrom then return (1, msg)
    else return (0, { msg with sFromAddress := coinAddrFrom })

/-- The text is in place: end it, and look at who sent it. -/
def finishMessage (crypto : MsgCrypto) (vchPayload : Bytes) (lenPlain : UInt32)
    (msg : MessageData) : Option (Nat × MessageData) := do
  let vchMessage ← overwrite msg.vchMessage lenPlain.toNat [0]
  let ended := { msg with vchMessage := vchMessage }
  if fromAnonymous vchPayload then return (0, { ended with sFromAddress := "anon" })
  else checkSender crypto vchPayload ended

def decompressText (crypto : MsgCrypto) (vchPayload : Bytes) (lenPlain : UInt32)
    (msg : MessageData) : Option (Nat × MessageData) := do
  let start := plainHeaderLen vchPayload
  let lenData := UInt32.ofNat vchPayload.length - UInt32.ofNat start
  let source ← slice vchPayload start lenData.toNat
  let unpacked := crypto.lz4 source lenPlain.toInt32.toInt
  let text := { msg with vchMessage := ← overwrite msg.vchMessage 0 unpacked.2 }
  if unpacked.1 ≠ lenPlain.toInt32.toInt then return (1, text)
  else finishMessage crypto vchPayload lenPlain text

def copyText (crypto : MsgCrypto) (vchPayload : Bytes) (lenPlain : UInt32)
    (msg : MessageData) : Option (Nat × MessageData) := do
  let plain ← slice vchPayload (plainHeaderLen vchPayload) lenPlain.toNat
  let text := { msg with vchMessage := ← overwrite msg.vchMessage 0 plain }
  finishMessage crypto vchPayload lenPlain text

def decodePlain (crypto : MsgCrypto) (vchPayload : Bytes) (msg : MessageData) :
    Option (Nat × MessageData) := do
  let _ ← slice vchPayload 0 1
  let lenPlain := uint32Of (← slice vchPayload (plainHeaderLen vchPayload - 4) 4)
  if !crypto.canResize (lenPlain + 1).toNat then return (8, msg)
  else
    let sized := { msg with vchMessage := resize msg.vchMessage (lenPlain + 1).toNat }
    let _ ← slice sized.vchMessage 0 1
    if 128 < lenPlain then decompressText crypto vchPayload lenPlain sized
    else copyText crypto vchPayload lenPlain sized

/-! ## The whole call -/

/-- `key_e` and `key_m`, the halves of the hash of the shared point. -/
def sharedKeys (crypto : MsgCrypto) (keyDest vchR : Bytes) : Option (Bytes × Bytes) := do
  let keyR ← crypto.setPubKey vchR
  let vchHashedDec := crypto.sha512 (← crypto.ecdh keyDest keyR)
  return (vchHashedDec.take 32, (vchHashedDec.drop 32).take 32)

/-- The message authentication code of timestamp and payload. -/
def macOf (crypto : MsgCrypto) (key_m timestamp payload : Bytes) : Option Bytes :=
  (crypto.hmac key_m (timestamp ++ payload)).filter (·.length = 32)

/-- `SecMsgCrypter::Decrypt`, which takes the address of the first byte of a vector as long
as the ciphertext. -/
def crypterDecrypt (crypto : MsgCrypto) (key_e iv payload : Bytes) : Option (Option Bytes) := do
  let _ ← slice payload 0 1
  return crypto.aesDecrypt key_e iv payload

/-- 0 success, 1 error, 2 unknown version number, 3 decrypt address is not valid, 8 could
not allocate memory. -/
def secureMsgDecrypt (crypto : MsgCrypto) (fTestOnly : Bool) (address : String)
    (pHeader pPayload : Pointer) (nPayload : UInt32) (msg : MessageData) :
    Option (Nat × MessageData) := do
  if (← versionField pHeader) ≠ [1] then return (2, msg)
  else match crypto.getKey address with
    | none => return (3, msg)
    | some keyDest =>
      match sharedKeys crypto keyDest (← cpkRField pHeader) with
      | none => return (1, msg)
      | some (key_e, key_m) =>
        let timestamp ← timestampField pHeader
        let payload ← pPayload.read 0 nPayload.toNat
        match macOf crypto key_m timestamp payload with
        | none => return (1, msg)
        | some mac =>
          if (← macField pHeader) ≠ mac then return (1, msg)
          else if fTestOnly then return (0, msg)
          else
            match ← crypterDecrypt crypto key_e (← ivField pHeader) payload with
            | none => return (1, msg)
            | some vchPayload =>
              decodePlain crypto vchPayload { msg with timestamp := int64Of timestamp }

/-! ## What a sender may not write -/

def lenPlainOf (vchPayload : Bytes) : UInt32 :=
  uint32Of ((vchPayload.drop (plainHeaderLen vchPayload - 4)).take 4)

/-- The text of a plaintext: the bytes behind its header, or what they are decompressed to,
over what a vector of the size held before.  There is none if the sizes differ. -/
def textOf (crypto : MsgCrypto) (vchPayload sized : Bytes) : Option Bytes :=
  let lenPlain := lenPlainOf vchPayload
  let start := plainHeaderLen vchPayload
  let data := vchPayload.drop start
  if 128 < lenPlain then
    let lenData := UInt32.ofNat vchPayload.length - UInt32.ofNat start
    let unpacked := crypto.lz4 (data.take lenData.toNat) lenPlain.toInt32.toInt
    if unpacked.1 = lenPlain.toInt32.toInt then
      some ((unpacked.2 ++ sized.drop unpacked.2.length).take lenPlain.toNat)
    else none
  else some (data.take lenPlain.toNat)

/-- A sender with a valid address gives a signature of the text that leads to a key. -/
def Signed (crypto : MsgCrypto) (vchPayload text : Bytes) : Prop :=
  fromAnonymous vchPayload = false →
    (crypto.address ((vchPayload.drop 1).take 20)).isSome = true →
      (crypto.recover (crypto.hash text) ((vchPayload.drop (1 + 20)).take 65)).isSome = true

/-- The plaintext holds its header and, uncompressed, its text; its length can be increased
by one; and its text is signed.  `vchMessage` is what the message held before. -/
structure PlainFits (crypto : MsgCrypto) (vchMessage vchPayload : Bytes) : Prop where
  header : plainHeaderLen vchPayload ≤ vchPayload.length
  text : crypto.canResize (lenPlainOf vchPayload + 1).toNat = true →
    lenPlainOf vchPayload + 1 ≠ 0 ∧ (lenPlainOf vchPayload ≤ 128 →
      plainHeaderLen vchPayload + (lenPlainOf vchPayload).toNat ≤ vchPayload.length) ∧
    ∀ text, textOf crypto vchPayload (resize vchMessage (lenPlainOf vchPayload + 1).toNat) =
      some text → Signed crypto vchPayload text

/-- The key a message opens with: the address is the wallet's, and the code is right. -/
def openingKey (crypto : MsgCrypto) (address : String) (header payload : Bytes) :
    Option Bytes := do
  let keyDest ← crypto.getKey address
  let (key_e, key_m) ← sharedKeys crypto keyDest ((header.drop 31).take 33)
  let mac ← macOf crypto key_m ((header.drop 7).take 8) payload
  if (header.drop 4).take 1 = [1] ∧ (header.drop 64).take 32 = mac then some key_e else none

/-- What is opened into `msg` is not empty and fits. -/
def OpensSafely (crypto : MsgCrypto) (address : String) (header payload : Bytes)
    (msg : MessageData) : Prop :=
  ∀ key_e, openingKey crypto address header payload = some key_e →
    payload ≠ [] ∧ ∀ vchPayload,
      crypto.aesDecrypt key_e ((header.drop 15).take 16) payload = some vchPayload →
        PlainFits crypto msg.vchMessage vchPayload

theorem toNat_succ {lenPlain : UInt32} (nonzero : lenPlain + 1 ≠ 0) :
    (lenPlain + 1).toNat = lenPlain.toNat + 1 := by
  have value : (lenPlain + 1).toNat = (lenPlain.toNat + 1) % 2 ^ 32 := UInt32.toNat_add _ _
  have bound := lenPlain.toNat_lt
  have positive : (lenPlain + 1).toNat ≠ 0 := fun zero => nonzero (UInt32.toNat_inj.mp zero)
  omega

theorem lenData_le {size start : Nat} (fits : start ≤ size) :
    start + (UInt32.ofNat size - UInt32.ofNat start).toNat ≤ size := by
  rw [UInt32.toNat_sub, UInt32.toNat_ofNat', UInt32.toNat_ofNat']
  omega

theorem toInt32_toNat_le (lenPlain : UInt32) : lenPlain.toInt32.toInt.toNat ≤ lenPlain.toNat := by
  have word : lenPlain.toInt32.toInt = lenPlain.toBitVec.toInt := rfl
  have value : lenPlain.toBitVec.toNat = lenPlain.toNat := rfl
  rw [word, BitVec.toInt_eq_toNat_cond, value]
  split_ifs <;> omega

theorem four_le_plainHeaderLen (vchPayload : Bytes) : 4 ≤ plainHeaderLen vchPayload := by
  unfold plainHeaderLen smsgPlHdrLen
  split_ifs <;> omega

section Plaintext
variable (crypto : MsgCrypto) {vchPayload : Bytes}

theorem checkSender_isSome_iff (fits : smsgPlHdrLen ≤ vchPayload.length) {msg : MessageData} :
    (checkSender crypto vchPayload msg).isSome = true ↔
      ((crypto.address ((vchPayload.drop 1).take 20)).isSome = true →
        (crypto.recover (crypto.hash msg.vchMessage.dropLast)
          ((vchPayload.drop (1 + 20)).take 65)).isSome = true) := by
  unfold smsgPlHdrLen at fits
  unfold checkSender
  rw [slice_inside (by omega), slice_inside (by omega)]
  simp only [bind_eq_bind, bind_some, Option.pure_def]
  cases crypto.address ((vchPayload.drop 1).take 20) with
  | none => simp
  | some coinAddrFrom =>
    cases crypto.recover (crypto.hash msg.vchMessage.dropLast)
        ((vchPayload.drop (1 + 20)).take 65) with
    | none => simp
    | some cpkFromSig =>
      simp only [bind_some, isSome_some, forall_const, iff_true]
      split_ifs <;> rfl

section Length
variable (fits : plainHeaderLen vchPayload ≤ vchPayload.length) {lenPlain : UInt32}
  {msg : MessageData} (room : msg.vchMessage.length = lenPlain.toNat + 1)
include fits room

theorem finishMessage_isSome_iff :
    (finishMessage crypto vchPayload lenPlain msg).isSome = true ↔
      Signed crypto vchPayload (msg.vchMessage.take lenPlain.toNat) := by
  have ends : overwrite msg.vchMessage lenPlain.toNat [0] =
      some (msg.vchMessage.take lenPlain.toNat ++ [0]) := by
    have last : lenPlain.toNat + [(0 : UInt8)].length = msg.vchMessage.length := room.symm
    rw [overwrite, if_pos last.le, last, List.drop_length, List.append_nil]
  unfold finishMessage Signed
  rw [ends]
  simp only [bind_eq_bind, bind_some, Option.pure_def]
  cases anonymous : fromAnonymous vchPayload with
  | true => simp
  | false =>
    rw [plainHeaderLen, anonymous] at fits
    rw [if_neg Bool.false_ne_true, checkSender_isSome_iff crypto fits, List.dropLast_concat]
    simp

/-- The text in front of what the vector held. -/
theorem finish_written {text : Bytes} (short : text.length ≤ lenPlain.toNat) :
    ∃ written, overwrite msg.vchMessage 0 text = some written ∧
      ((finishMessage crypto vchPayload lenPlain { msg with vchMessage := written }).isSome = true ↔
        Signed crypto vchPayload
          ((text ++ msg.vchMessage.drop text.length).take lenPlain.toNat)) := by
  have inside : 0 + text.length ≤ msg.vchMessage.length := by omega
  have written : overwrite msg.vchMessage 0 text =
      some (text ++ msg.vchMessage.drop text.length) := by
    rw [overwrite, if_pos inside, List.take_zero, List.nil_append, Nat.zero_add]
  exact ⟨_, written, finishMessage_isSome_iff crypto fits
    ((length_of_overwrite written).trans room)⟩

theorem decompressText_isSome_iff (long : 128 < lenPlain)
    (announced : lenPlain = lenPlainOf vchPayload) :
    (decompressText crypto vchPayload lenPlain msg).isSome = true ↔
      ∀ text, textOf crypto vchPayload msg.vchMessage = some text →
        Signed crypto vchPayload text := by
  subst announced
  simp only [decompressText, textOf, slice_inside (lenData_le fits), bind_eq_bind, bind_some,
    if_pos long]
  generalize (vchPayload.drop (plainHeaderLen vchPayload)).take _ = source
  have bounded := crypto.lz4_bounded source (lenPlainOf vchPayload).toInt32.toInt
  obtain ⟨written, wrote, finished⟩ := finish_written crypto fits room
    (bounded.trans (toInt32_toNat_le (lenPlainOf vchPayload)))
  rw [wrote, bind_some]
  by_cases same : (crypto.lz4 source (lenPlainOf vchPayload).toInt32.toInt).1 =
      (lenPlainOf vchPayload).toInt32.toInt
  · rw [if_neg (not_not.mpr same), if_pos same, finished]
    simp
  · rw [if_pos same, if_neg same]
    exact iff_of_true rfl nofun

theorem copyText_isSome_iff (short : ¬ 128 < lenPlain)
    (announced : lenPlain = lenPlainOf vchPayload) :
    (copyText crypto vchPayload lenPlain msg).isSome = true ↔
      plainHeaderLen vchPayload + lenPlain.toNat ≤ vchPayload.length ∧
      ∀ text, textOf crypto vchPayload msg.vchMessage = some text →
        Signed crypto vchPayload text := by
  subst announced
  unfold copyText
  by_cases inside : plainHeaderLen vchPayload + (lenPlainOf vchPayload).toNat ≤ vchPayload.length
  · have length : ((vchPayload.drop (plainHeaderLen vchPayload)).take
        (lenPlainOf vchPayload).toNat).length = (lenPlainOf vchPayload).toNat := by
      rw [List.length_take, List.length_drop]
      omega
    obtain ⟨written, wrote, finished⟩ := finish_written crypto fits room length.le
    rw [slice_inside inside]
    simp only [wrote, bind_eq_bind, bind_some, finished, textOf, if_neg short, some.injEq,
      forall_eq', inside, true_and, List.take_left' length]
  · rw [slice_outside (not_le.mp inside)]
    exact iff_of_false Bool.false_ne_true fun both => inside both.1

end Length

/-- The message is resized to one byte more than its text; that is nothing if the sum
wraps. -/
theorem decodePlain_isSome_of_fits (fits : plainHeaderLen vchPayload ≤ vchPayload.length)
    (msg : MessageData) :
    (decodePlain crypto vchPayload msg).isSome = true ↔
      (crypto.canResize (lenPlainOf vchPayload + 1).toNat = true →
        lenPlainOf vchPayload + 1 ≠ 0 ∧ (lenPlainOf vchPayload ≤ 128 →
          plainHeaderLen vchPayload + (lenPlainOf vchPayload).toNat ≤ vchPayload.length) ∧
        ∀ text, textOf crypto vchPayload (resize msg.vchMessage
          (lenPlainOf vchPayload + 1).toNat) = some text → Signed crypto vchPayload text) := by
  have four := four_le_plainHeaderLen vchPayload
  have word : uint32Of ((vchPayload.drop (plainHeaderLen vchPayload - 4)).take 4) =
    lenPlainOf vchPayload := rfl
  unfold decodePlain
  rw [slice_inside (by omega), slice_inside (by omega)]
  simp only [word, bind_eq_bind, bind_some]
  cases canResize : crypto.canResize (lenPlainOf vchPayload + 1).toNat with
  | false => exact iff_of_true rfl nofun
  | true =>
    simp only [Bool.not_true, Bool.false_eq_true, if_false, forall_const]
    by_cases wraps : lenPlainOf vchPayload + 1 = 0
    · rw [slice_outside (by rw [wraps, resize_length]; decide)]
      exact iff_of_false Bool.false_ne_true (fun safe => safe.1 wraps)
    · have room := toNat_succ wraps
      rw [slice_inside (by rw [resize_length]; omega), bind_some]
      split_ifs with long
      · rw [decompressText_isSome_iff crypto fits (resize_length.trans room) long rfl]
        exact ⟨fun signed => ⟨wraps, fun short => absurd long (UInt32.not_lt.mpr short), signed⟩,
          fun safe => safe.2.2⟩
      · rw [copyText_isSome_iff crypto fits (resize_length.trans room) long rfl]
        exact ⟨fun safe => ⟨wraps, fun _ => safe.1, safe.2⟩,
          fun safe => ⟨safe.2.1 (UInt32.not_lt.mp long), safe.2.2⟩⟩

theorem decodePlain_isSome_iff (msg : MessageData) :
    (decodePlain crypto vchPayload msg).isSome = true ↔
      PlainFits crypto msg.vchMessage vchPayload := by
  have four := four_le_plainHeaderLen vchPayload
  constructor
  · intro done
    obtain ⟨result, ran⟩ := isSome_iff_exists.mp done
    obtain ⟨_, -, rest⟩ := bind_eq_some_iff.mp ran
    obtain ⟨word, read, -⟩ := bind_eq_some_iff.mp rest
    have inside := slice_isSome_iff.mp (isSome_of_eq_some read)
    have fits : plainHeaderLen vchPayload ≤ vchPayload.length := by omega
    exact ⟨fits, (decodePlain_isSome_of_fits crypto fits msg).mp done⟩
  · intro plain
    exact (decodePlain_isSome_of_fits crypto plain.header msg).mpr plain.text

end Plaintext

/-! ## Header and payload behind two pointers -/

structure Reads (pHeader pPayload : Pointer) (header payload : Bytes) : Prop where
  field : ∀ skip count, skip + count ≤ smsgHdrLen →
    pHeader.read skip count = some ((header.drop skip).take count)
  whole : pPayload.read 0 payload.length = some payload

theorem reads_own {header : Bytes} (exact : header.length = smsgHdrLen) {payload : Bytes} :
    Reads ⟨header, 0⟩ ⟨payload, 0⟩ header payload := by
  refine ⟨fun skip count inner => ?_, ?_⟩
  · rw [Pointer.read, Nat.zero_add]
    apply slice_inside
    rw [exact]
    exact inner
  · rw [Pointer.read, slice_inside (by simp), List.drop_zero, List.take_length]

section WholeCall
variable {crypto : MsgCrypto} {pHeader pPayload : Pointer} {header payload : Bytes}
variable {nPayload : UInt32}

/-- The call with its reads done. -/
def decryptRead (crypto : MsgCrypto) (fTestOnly : Bool) (address : String)
    (header payload : Bytes) (msg : MessageData) : Option (Nat × MessageData) :=
  if (header.drop 4).take 1 ≠ [1] then some (2, msg)
  else match crypto.getKey address with
    | none => some (3, msg)
    | some keyDest =>
      match sharedKeys crypto keyDest ((header.drop 31).take 33) with
      | none => some (1, msg)
      | some (key_e, key_m) =>
        match macOf crypto key_m ((header.drop 7).take 8) payload with
        | none => some (1, msg)
        | some mac =>
          if (header.drop 64).take 32 ≠ mac then some (1, msg)
          else if fTestOnly then some (0, msg)
          else (crypterDecrypt crypto key_e ((header.drop 15).take 16) payload).bind
            fun
            | none => some (1, msg)
            | some vchPayload => decodePlain crypto vchPayload
                { msg with timestamp := int64Of ((header.drop 7).take 8) }

variable {fTestOnly : Bool} {msg : MessageData} {address : String}

theorem Reads.decrypt (reads : Reads pHeader pPayload header payload)
    (sized : nPayload.toNat = payload.length) :
    secureMsgDecrypt crypto fTestOnly address pHeader pPayload nPayload msg =
      decryptRead crypto fTestOnly address header payload msg := by
  have version : versionField pHeader = some _ := reads.field 4 1 (by decide)
  have cpkR : cpkRField pHeader = some _ := reads.field 31 33 (by decide)
  have time : timestampField pHeader = some _ := reads.field 7 8 (by decide)
  have mac : macField pHeader = some _ := reads.field 64 32 (by decide)
  have iv : ivField pHeader = some _ := reads.field 15 16 (by decide)
  simp only [secureMsgDecrypt, decryptRead, version, cpkR, time, mac, iv, sized, reads.whole,
    bind_eq_bind, bind_some, Option.pure_def]

theorem decryptRead_of_opening {key_e : Bytes}
    (opens : openingKey crypto address header payload = some key_e) :
    decryptRead crypto fTestOnly address header payload msg = if fTestOnly then some (0, msg)
      else (crypterDecrypt crypto key_e ((header.drop 15).take 16) payload).bind fun
        | none => some (1, msg)
        | some vchPayload => decodePlain crypto vchPayload
            { msg with timestamp := int64Of ((header.drop 7).take 8) } := by
  obtain ⟨keyDest, key, opens⟩ := bind_eq_some_iff.mp opens
  obtain ⟨⟨shared_e, key_m⟩, shared, opens⟩ := bind_eq_some_iff.mp opens
  obtain ⟨mac, code, opens⟩ := bind_eq_some_iff.mp opens
  obtain ⟨⟨version, same⟩, same_e⟩ := ite_none_right_eq_some.mp opens
  cases same_e
  simp only [decryptRead, version, key, shared, code, same, ne_eq, not_true_eq_false, if_false]

theorem decryptRead_of_closed (closed : openingKey crypto address header payload = none) :
    ∃ code, code ≠ 0 ∧ decryptRead crypto fTestOnly address header payload msg =
      some (code, msg) := by
  unfold decryptRead
  by_cases version : (header.drop 4).take 1 ≠ [1]
  · exact ⟨2, by decide, if_pos version⟩
  rw [if_neg version]
  cases key : crypto.getKey address with
  | none => exact ⟨3, by decide, rfl⟩
  | some keyDest =>
    cases shared : sharedKeys crypto keyDest ((header.drop 31).take 33) with
    | none => exact ⟨1, by decide, by simp only [shared]⟩
    | some keys =>
      cases code : macOf crypto keys.2 ((header.drop 7).take 8) payload with
      | none => exact ⟨1, by decide, by simp only [shared, code]⟩
      | some mac =>
        have differs : (header.drop 64).take 32 ≠ mac := by
          intro same
          simp only [openingKey, key, shared, code, same, not_not.mp version,
            bind_eq_bind, bind_some, and_self, if_true] at closed
          exact absurd closed (by simp)
        exact ⟨1, by decide, by simp only [shared, code, if_pos differs]⟩

theorem decryptRead_isSome_iff :
    (decryptRead crypto fTestOnly address header payload msg).isSome = true ↔
      fTestOnly = true ∨ OpensSafely crypto address header payload msg := by
  unfold OpensSafely
  cases opens : openingKey crypto address header payload with
  | none =>
    obtain ⟨code, -, refused⟩ := decryptRead_of_closed opens
    rw [refused]
    exact iff_of_true rfl (Or.inr (fun _ impossible => by cases impossible))
  | some key_e =>
    rw [decryptRead_of_opening opens]
    cases fTestOnly with
    | true => exact iff_of_true rfl (Or.inl rfl)
    | false =>
      simp only [Bool.false_eq_true, if_false, false_or, some.injEq, forall_eq']
      cases payload with
      | nil => exact iff_of_false Bool.false_ne_true (fun safe => safe.1 rfl)
      | cons first rest =>
        have nonempty : slice (first :: rest) 0 1 = some [first] := slice_inside (by simp)
        simp only [crypterDecrypt, nonempty, bind_eq_bind, bind_some,
          Option.pure_def, ne_eq, reduceCtorEq, not_false_eq_true, true_and]
        cases plain : crypto.aesDecrypt key_e ((header.drop 15).take 16) (first :: rest) with
        | none => exact iff_of_true rfl (fun _ impossible => by cases impossible)
        | some vchPayload => simp only [decodePlain_isSome_iff, some.injEq, forall_eq']

/-- The call stays inside its buffers for a test, and otherwise exactly if a message that
opens for the address has a plaintext that fits. -/
theorem secureMsgDecrypt_inside_iff (crypto : MsgCrypto) (fTestOnly : Bool) (address : String)
    (headerExact : header.length = smsgHdrLen) (payloadExact : nPayload.toNat = payload.length)
    (msg : MessageData) :
    (secureMsgDecrypt crypto fTestOnly address ⟨header, 0⟩ ⟨payload, 0⟩ nPayload msg).isSome
        = true ↔
      fTestOnly = true ∨ OpensSafely crypto address header payload msg := by
  rw [(reads_own headerExact).decrypt payloadExact]
  exact decryptRead_isSome_iff

end WholeCall

/-! ### A small library

A cipher of sixteen-byte blocks that changes nothing but the padding, codes that are all
zero, and signatures that add the text to the key. -/

def removePadding (payload : Bytes) : Option Bytes :=
  if payload ≠ [] ∧ payload.length % 16 = 0 then
    some (payload.take (payload.length - (payload.getLastD 0).toNat))
  else none

def plainRecover (hash vchSig : Bytes) : Option Bytes :=
  if 27 ≤ vchSig.headD 0 ∧ vchSig.headD 0 < 35 then
    some (List.zipWith (· - ·) ((vchSig.drop 1).take 20) hash)
  else none

def plainCrypto : MsgCrypto where
  hmac _ _ := some (List.replicate 32 0)
  xxh32 samples := UInt32.ofNat samples.length
  getKey address := if address = "own" then some [] else none
  setPubKey := some
  ecdh _ _ := some []
  sha512 _ := []
  aesDecrypt _ _ payload := removePadding payload
  lz4 _ _ := (-1, [])
  lz4_bounded _ _ := Nat.zero_le _
  canResize _ := true
  hash text := resize text 32
  recover := plainRecover
  getID key := key
  address ckid := if ckid.length = 20 then some "sender" else none

/-- A header of version 1 and the given timestamp and payload length. -/
def plainHeader (timestamp nPayload : UInt8) : Bytes :=
  [0, 0, 0, 0, 1, 0, 0, timestamp] ++ List.replicate 92 0 ++ [nPayload, 0, 0, 0]

/-- The plaintext is the one byte 250, and the length is read behind it; or it is ninety
zeros, whose signature leads to no key. -/
theorem secureMsgDecrypt_reads_outside :
    plainCrypto.getKey "own" = some [] ∧ (plainHeader 0 16).length = smsgHdrLen ∧
      (16 : UInt32) ≤ smsgMaxMsgWorst ∧
      plainCrypto.aesDecrypt [] [] (250 :: List.replicate 15 15) = some [250] ∧
      (secureMsgDecrypt plainCrypto false "own" ⟨plainHeader 0 16, 0⟩
        ⟨250 :: List.replicate 15 15, 0⟩ 16 noMessage).isSome = false ∧
      (secureMsgDecrypt plainCrypto false "own" ⟨plainHeader 0 96, 0⟩
        ⟨List.replicate 90 0 ++ List.replicate 6 6, 0⟩ 96 noMessage).isSome = false := by
  decide +kernel

/-- The ciphertext of two bytes of text from the sender whose key id is all `sender`. -/
def signedPayload (sender : UInt8) : Bytes :=
  0 :: List.replicate 20 sender ++ [27, sender + 104, sender + 105] ++ List.replicate 18 sender ++
    List.replicate 44 0 ++ [2, 0, 0, 0, 104, 105] ++ List.replicate 4 4

/-- A message with a signed text is opened. -/
theorem opensSafely_signed :
    (secureMsgDecrypt plainCrypto false "own" ⟨plainHeader 0 96, 0⟩ ⟨signedPayload 7, 0⟩ 96
      noMessage).map (fun opened => (opened.1, opened.2.sFromAddress, opened.2.vchMessage)) =
        some (0, "sender", [104, 105, 0]) ∧
      OpensSafely plainCrypto "own" (plainHeader 0 96) (signedPayload 7) noMessage :=
  ⟨by decide +kernel, ((secureMsgDecrypt_inside_iff plainCrypto false "own" (by decide)
    (show (96 : UInt32).toNat = _ by decide) noMessage).mp (by decide +kernel)).resolve_left
    Bool.false_ne_true⟩

end SynergyMessage.Decrypt
