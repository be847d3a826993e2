import SynergyFormal.Message.Decrypt

/-!
# Scanning a message for its recipient

`SecureMsgScanMessage`: the message is tried with each address of the node that receives
messages, in order, and goes to the inbox of the first that opens it.  The key of an inbox
record takes eight bytes behind the payload pointer, however long the payload is.

An address is written as `CBitcoinAddress::ToString` writes it.  The inbox database does
not fail; the notification of the interface is left out.
-/

set_option autoImplicit false

namespace SynergyMessage.Scan

open SynergyLib
open Option Wire Slices SecureMsg Decrypt

structure SecMsgAddress where
  sAddress : String
  fReceiveEnabled : Bool
  fReceiveAnon : Bool

structure SecMsgStored where
  timeReceived : Int
  status : UInt8
  sAddrTo : String
  vchMessage : Bytes

abbrev Inbox := AList (fun _ : Bytes => SecMsgStored)

/-- What the node's functions read and do not change. -/
structure Receiver where
  crypto : MsgCrypto
  now : Int
  isLocked : Bool
  smsgAddresses : List SecMsgAddress

abbrev Receiver.env (receiver : Receiver) : MsgEnv := receiver.crypto.toMsgEnv

/-- The loop over `smsgAddresses`; `addressTo` if `fOwnMessage`. -/
def findRecipient (crypto : MsgCrypto) (pHeader pPayload : Pointer) (nPayload : UInt32) :
    List SecMsgAddress → MessageData → Option (Option String)
  | [], _ => some none
  | address :: rest, msg =>
    if !address.fReceiveEnabled then findRecipient crypto pHeader pPayload nPayload rest msg
    else do
      let addressTo := address.sAddress
      let opened ←
        secureMsgDecrypt crypto address.fReceiveAnon addressTo pHeader pPayload nPayload msg
      if opened.1 ≠ 0 then findRecipient crypto pHeader pPayload nPayload rest opened.2
      else if !address.fReceiveAnon && opened.2.sFromAddress == "anon" then return none
      else return some addressTo

def smsgMaskUnread : UInt8 := 1

def saveToInbox (receiver : Receiver) (addressTo : String) (pHeader pPayload : Pointer)
    (nPayload : UInt32) (inbox : Inbox) : Option (Nat × Inbox) := do
  let timestamp ← timestampField pHeader
  let chKey := [105, 109] ++ timestamp ++ (← pPayload.read 0 8)
  let size := UInt32.ofNat smsgHdrLen + nPayload
  if !receiver.crypto.canResize size.toNat then return (1, inbox)
  else
    let header ← overwrite (List.replicate size.toNat 0) 0 (← pHeader.read 0 smsgHdrLen)
    let vchMessage ← overwrite header smsgHdrLen (← pPayload.read 0 nPayload.toNat)
    if (inbox.lookup chKey).isSome then return (0, inbox)
    else return (0, inbox.insert chKey ⟨receiver.now, smsgMaskUnread, addressTo, vchMessage⟩)

structure Scanned where
  code : Nat
  files : Files
  inbox : Inbox

/-- 0 success, 1 error, 3 wallet is locked - message stored for scanning later. -/
def secureMsgScanMessage (receiver : Receiver) (files : Files) (inbox : Inbox)
    (pHeader pPayload : Pointer) (nPayload : UInt32) : Option Scanned := do
  if receiver.isLocked then
    let stored ← secureMsgStoreUnscanned receiver.now files pHeader pPayload nPayload
    return ⟨if stored.1 ≠ 0 then 1 else 3, stored.2, inbox⟩
  else
    match ← findRecipient receiver.crypto pHeader pPayload nPayload receiver.smsgAddresses
      noMessage with
    | none => return ⟨0, files, inbox⟩
    | some addressTo =>
      let saved ← saveToInbox receiver addressTo pHeader pPayload nPayload inbox
      return ⟨saved.1, files, saved.2⟩

/-! ## When a scan stays inside the vector -/

/-- `address` is tried, with what is left in the placeholder by those before it. -/
inductive Tried (crypto : MsgCrypto) (smsg : SecureMessage) :
    List SecMsgAddress → MessageData → SecMsgAddress → MessageData → Prop where
  | first {address : SecMsgAddress} {rest : List SecMsgAddress} {msg : MessageData}
      (enabled : address.fReceiveEnabled = true) :
      Tried crypto smsg (address :: rest) msg address msg
  | skip {address other : SecMsgAddress} {rest : List SecMsgAddress} {msg found : MessageData}
      (disabled : address.fReceiveEnabled = false)
      (later : Tried crypto smsg rest msg other found) :
      Tried crypto smsg (address :: rest) msg other found
  | next {address other : SecMsgAddress} {rest : List SecMsgAddress}
      {msg left found : MessageData} {code : Nat}
      (enabled : address.fReceiveEnabled = true)
      (refused : decryptRead crypto address.fReceiveAnon address.sAddress smsg.header smsg.body
        msg = some (code, left))
      (failed : code ≠ 0) (later : Tried crypto smsg rest left other found) :
      Tried crypto smsg (address :: rest) msg other found

/-- The message is the node's own, received with `address`. -/
def Received (crypto : MsgCrypto) (smsg : SecureMessage) (address : SecMsgAddress)
    (msg : MessageData) : Prop :=
  ∃ opened, decryptRead crypto address.fReceiveAnon address.sAddress smsg.header smsg.body msg =
      some (0, opened) ∧
    (address.fReceiveAnon = true ∨ opened.sFromAddress ≠ "anon")

/-- Every address tried opens the message safely, and an own message has eight bytes of
payload or of what follows it. -/
def ScanFits (crypto : MsgCrypto) (smsgAddresses : List SecMsgAddress) (smsg : SecureMessage)
    (room : Nat) : Prop :=
  ∀ address msg, Tried crypto smsg smsgAddresses noMessage address msg →
    (address.fReceiveAnon = true ∨
      OpensSafely crypto address.sAddress smsg.header smsg.body msg) ∧
    (Received crypto smsg address msg → 8 ≤ room)

variable {pHeader pPayload : Pointer}

theorem reads_of_behind {smsg : SecureMessage} (behind : Behind pHeader pPayload smsg) :
    Reads pHeader pPayload smsg.header smsg.body := by
  refine ⟨fun skip count inner => behind.field inner, ?_⟩
  rw [smsg.bodyExact]
  exact behind.wholePayload

section Addresses
variable {crypto : MsgCrypto} {smsg : SecureMessage}

variable {msg found opened : MessageData} {other address : SecMsgAddress}
  {rest smsgAddresses : List SecMsgAddress}

theorem tried_skip_iff (disabled : address.fReceiveEnabled = false) :
    Tried crypto smsg (address :: rest) msg other found ↔
      Tried crypto smsg rest msg other found := by
  constructor
  · intro tried
    cases tried with
    | first enabled => exact absurd (enabled.symm.trans disabled) (by decide)
    | skip _ later => exact later
    | next enabled => exact absurd (enabled.symm.trans disabled) (by decide)
  · exact Tried.skip disabled

theorem tried_decrypted_iff {left : MessageData} {code : Nat}
    (enabled : address.fReceiveEnabled = true)
    (decrypted : decryptRead crypto address.fReceiveAnon address.sAddress smsg.header smsg.body
      msg = some (code, left)) :
    Tried crypto smsg (address :: rest) msg other found ↔
      (other = address ∧ found = msg) ∨ (code ≠ 0 ∧ Tried crypto smsg rest left other found) := by
  constructor
  · intro tried
    cases tried with
    | first => exact Or.inl ⟨rfl, rfl⟩
    | skip disabled => exact absurd (enabled.symm.trans disabled) (by decide)
    | next _ refused failed later =>
      cases decrypted.symm.trans refused
      exact Or.inr ⟨failed, later⟩
  · rintro (⟨rfl, rfl⟩ | ⟨failed, later⟩)
    · exact Tried.first enabled
    · exact Tried.next enabled decrypted failed later

/-- The loop with its reads done. -/
def recipientOf (crypto : MsgCrypto) (smsg : SecureMessage) :
    List SecMsgAddress → MessageData → Option (Option String)
  | [], _ => some none
  | address :: rest, msg =>
    if !address.fReceiveEnabled then recipientOf crypto smsg rest msg
    else
      (decryptRead crypto address.fReceiveAnon address.sAddress smsg.header smsg.body msg).bind
        fun opened =>
          if opened.1 ≠ 0 then recipientOf crypto smsg rest opened.2
          else if !address.fReceiveAnon && opened.2.sFromAddress == "anon" then some none
          else some (some address.sAddress)

theorem findRecipient_eq (behind : Behind pHeader pPayload smsg) : ∀ msg,
    findRecipient crypto pHeader pPayload smsg.nPayload smsgAddresses msg =
      recipientOf crypto smsg smsgAddresses msg := by
  have sized : smsg.nPayload.toNat = smsg.body.length := smsg.bodyExact.symm
  induction smsgAddresses with
  | nil =>
    intro msg
    rfl
  | cons address rest ih =>
    intro msg
    unfold findRecipient recipientOf
    simp only [ih, (reads_of_behind behind).decrypt sized, bind_eq_bind, Option.pure_def]

/-- The loop reads inside the vectors, and finds a recipient only if there is `enough`. -/
def RecipientFits (enough : Prop) (recipient : Option (Option String)) : Prop :=
  ∃ owner, recipient = some owner ∧ (owner.isSome = true → enough)

theorem received_of_opened
    (decrypted : decryptRead crypto address.fReceiveAnon address.sAddress smsg.header smsg.body
      msg = some (0, opened)) :
    Received crypto smsg address msg ↔
      (!address.fReceiveAnon && opened.sFromAddress == "anon") = false := by
  unfold Received
  simp only [decrypted, some.injEq, Prod.mk.injEq, true_and, exists_eq_left']
  cases address.fReceiveAnon <;> simp

theorem recipientOf_fits_iff {enough : Prop} : ∀ msg,
    RecipientFits enough (recipientOf crypto smsg smsgAddresses msg) ↔
      ∀ address found, Tried crypto smsg smsgAddresses msg address found →
        (address.fReceiveAnon = true ∨
          OpensSafely crypto address.sAddress smsg.header smsg.body found) ∧
        (Received crypto smsg address found → enough) := by
  induction smsgAddresses with
  | nil =>
    intro msg
    exact iff_of_true ⟨none, rfl, nofun⟩ nofun
  | cons address rest ih =>
    intro msg
    unfold recipientOf
    cases enabled : address.fReceiveEnabled with
    | false =>
      simp only [tried_skip_iff enabled]
      exact ih msg
    | true =>
      simp only [Bool.not_true, Bool.false_eq_true, if_false]
      have opens : (decryptRead crypto address.fReceiveAnon address.sAddress smsg.header
          smsg.body msg).isSome = true ↔ _ := decryptRead_isSome_iff
      cases decrypted : decryptRead crypto address.fReceiveAnon address.sAddress
          smsg.header smsg.body msg with
      | none =>
        rw [decrypted] at opens
        apply iff_of_false
        · rintro ⟨owner, impossible, -⟩
          exact nomatch impossible
        · intro fits
          exact Bool.false_ne_true (opens.mpr (fits address msg (Tried.first enabled)).1)
      | some result =>
        rw [decrypted] at opens
        obtain ⟨code, left⟩ := result
        rw [bind_some]
        by_cases failed : code ≠ 0
        · rw [if_pos failed, ih left]
          simp only [tried_decrypted_iff enabled decrypted]
          constructor
          · rintro fits other found (⟨rfl, rfl⟩ | ⟨_, later⟩)
            · refine ⟨opens.mp rfl, fun received => ?_⟩
              obtain ⟨opened, succeeded, -⟩ := received
              cases decrypted.symm.trans succeeded
              exact absurd rfl failed
            · exact fits other found later
          · intro fits other found later
            exact fits other found (Or.inr ⟨failed, later⟩)
        · obtain rfl : code = 0 := not_not.mp failed
          rw [if_neg failed]
          simp only [tried_decrypted_iff enabled decrypted, failed, false_and, or_false, and_imp,
            forall_eq_apply_imp_iff, forall_eq, received_of_opened decrypted]
          split_ifs with anonymous
          · exact iff_of_true ⟨none, rfl, nofun⟩
              ⟨opens.mp rfl, fun other => absurd (anonymous.symm.trans other) (by decide)⟩
          · constructor
            · rintro ⟨owner, found, fits⟩
              cases found
              exact ⟨opens.mp rfl, fun _ => fits rfl⟩
            · intro fits
              exact ⟨_, rfl, fun _ => fits.2 (Bool.eq_false_iff.mpr anonymous)⟩

end Addresses

section WholeScan
variable {receiver : Receiver} {smsg : SecureMessage}

theorem unscanned_isSome (behind : Behind pHeader pPayload smsg) {now : Int} {files : Files} :
    (secureMsgStoreUnscanned now files pHeader pPayload smsg.nPayload).isSome = true := by
  have time : timestampField pHeader = some _ := behind.field (by decide)
  simp only [secureMsgStoreUnscanned, time, behind.wholeHeader, behind.wholePayload,
    bind_eq_bind, bind_some, Option.pure_def]
  split_ifs <;> rfl

theorem inboxSize {nPayload : UInt32} (small : nPayload ≤ smsgMaxMsgWorst) :
    (UInt32.ofNat smsgHdrLen + nPayload).toNat = smsgHdrLen + nPayload.toNat := by
  have bound := toNat_le_worst small
  have value : (UInt32.ofNat smsgHdrLen).toNat = smsgHdrLen := by decide
  rw [UInt32.toNat_add, value, Nat.mod_eq_of_lt]
  unfold smsgHdrLen
  omega

section Offset
variable (behind : Behind pHeader pPayload smsg) (small : smsg.nPayload ≤ smsgMaxMsgWorst)
  (inside : pPayload.offset ≤ pPayload.buffer.length)
include behind small inside

variable {inbox : Inbox}

theorem saveToInbox_isSome_iff {addressTo : String} :
    (saveToInbox receiver addressTo pHeader pPayload smsg.nPayload inbox).isSome = true ↔
      8 ≤ pPayload.room := by
  have time : timestampField pHeader = some _ := behind.field (by decide)
  have size := inboxSize small
  have first : 0 + smsg.header.length ≤
      (List.replicate (UInt32.ofNat smsgHdrLen + smsg.nPayload).toNat (0 : UInt8)).length := by
    rw [List.length_replicate, size, smsg.headerExact]
    exact Nat.le_trans (Nat.zero_add _).le (Nat.le_add_right _ _)
  obtain ⟨header, headed⟩ := isSome_iff_exists.mp (overwrite_isSome_iff.mpr first)
  have second : smsgHdrLen + smsg.body.length ≤ header.length := by
    rw [length_of_overwrite headed, List.length_replicate, size, smsg.bodyExact]
    exact le_refl _
  obtain ⟨vchMessage, filled⟩ := isSome_iff_exists.mp (overwrite_isSome_iff.mpr second)
  rw [← Nat.zero_add 8, ← Pointer.read_isSome_iff inside]
  simp only [saveToInbox, time, behind.wholeHeader, behind.wholePayload, headed, filled,
    bind_eq_bind, bind_some, Option.pure_def]
  cases pPayload.read 0 8 with
  | none => exact Iff.rfl
  | some sample =>
    apply iff_of_true _ rfl
    rw [bind_some]
    split_ifs <;> rfl

theorem secureMsgScanMessage_isSome_iff {files : Files} :
    (secureMsgScanMessage receiver files inbox pHeader pPayload smsg.nPayload).isSome = true ↔
      receiver.isLocked = true ∨
        ScanFits receiver.crypto receiver.smsgAddresses smsg pPayload.room := by
  unfold secureMsgScanMessage ScanFits
  cases locked : receiver.isLocked with
  | true =>
    obtain ⟨stored, done⟩ := isSome_iff_exists.mp (unscanned_isSome behind)
    rw [if_pos rfl, done]
    exact iff_of_true rfl (Or.inl rfl)
  | false =>
    rw [if_neg Bool.false_ne_true, findRecipient_eq behind, ← recipientOf_fits_iff]
    simp only [Bool.false_eq_true, false_or]
    unfold RecipientFits
    cases recipientOf receiver.crypto smsg receiver.smsgAddresses noMessage with
    | none => simp
    | some owner =>
      cases owner with
      | none => simp
      | some addressTo =>
        have saved : (saveToInbox receiver addressTo pHeader pPayload smsg.nPayload
            inbox).isSome = true ↔ _ := saveToInbox_isSome_iff behind small inside
        simp only [bind_eq_bind, bind_some, some.injEq,
          exists_eq_left', isSome_some, forall_const, ← saved]
        cases saveToInbox receiver addressTo pHeader pPayload smsg.nPayload inbox <;> rfl

end Offset

end WholeScan

theorem scan_keeps_messages {receiver : Receiver} {files : Files} {inbox : Inbox}
    {nPayload : UInt32} {scan : Scanned}
    (scanned : secureMsgScanMessage receiver files inbox pHeader pPayload nPayload = some scan)
    (time : Int) : fileBytes scan.files (.dat time) = fileBytes files (.dat time) := by
  unfold secureMsgScanMessage at scanned
  split_ifs at scanned with locked
  · obtain ⟨⟨code, written⟩, stored, result⟩ := bind_eq_some_iff.mp scanned
    cases result
    exact unscanned_keeps_messages stored
  · obtain ⟨recipient, -, result⟩ := bind_eq_some_iff.mp scanned
    cases recipient with
    | none =>
      cases result
      rfl
    | some addressTo =>
      obtain ⟨saved, -, result⟩ := bind_eq_some_iff.mp result
      cases result
      rfl

end SynergyMessage.Scan
