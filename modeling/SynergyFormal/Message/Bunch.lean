import SynergyFormal.Message.Receive
import SynergyFormal.Message.ReceiveData

/-!
# A bunch of messages, message by message

What a well-formed bunch leaves in the store, compared with storing its messages one by
one.  The two agree exactly if every message that can be stored stands before all that
cannot: the loop does not get past a message that is invalid, out of the time window or
already there.
-/

set_option autoImplicit false

namespace SynergyMessage.Bunch

open SynergyLib
open Wire Slices RecordLog SecureMsg Decrypt Scan Receive ReceiveData

/-! ## Storing one by one -/

section OneByOne
variable (env : MsgEnv) (now : Int)

def storeOne (store : MsgStore) (smsg : SecureMessage) : MsgStore :=
  if validateMessage env smsg = 0 then (storeMessage env now store smsg false).2 else store

/-- Every message that is valid is given to `SecureMsgStore`. -/
def storeAll (store : MsgStore) (msgs : List SecureMessage) : MsgStore :=
  msgs.foldl (storeOne env now) store

/-- `SecureMsgValidate` and `SecureMsgStore` both accept the message. -/
def Accepted (store : MsgStore) (smsg : SecureMessage) : Prop :=
  validateMessage env smsg = 0 ∧ (storeMessage env now store smsg false).1 = 0

/-- The message at a position is accepted when its turn comes. -/
def AcceptedAt (store : MsgStore) (msgs : List SecureMessage) (i : Nat) : Prop :=
  ∃ smsg, msgs[i]? = some smsg ∧ Accepted env now (storeAll env now store (msgs.take i)) smsg

variable {env now}

variable {msgs : List SecureMessage} {store : MsgStore} {smsg : SecureMessage}

theorem acceptedAt_zero :
    AcceptedAt env now store (smsg :: msgs) 0 ↔ Accepted env now store smsg := by
  simp [AcceptedAt, storeAll]

theorem acceptedAt_succ {i : Nat} : AcceptedAt env now store (smsg :: msgs) (i + 1) ↔
      AcceptedAt env now (storeOne env now store smsg) msgs i := by
  simp [AcceptedAt, storeAll]

section Same
variable {other : MsgStore}

theorem accepted_congr (same : SameMessages store other) (smsg : SecureMessage) :
    Accepted env now store smsg ↔ Accepted env now other smsg :=
  and_congr_right fun _ => (same.store env now smsg false).1

theorem storeOne_congr (same : SameMessages store other) :
    SameMessages (storeOne env now store smsg) (storeOne env now other smsg) := by
  unfold storeOne
  split_ifs
  · exact (same.store env now smsg false).2
  · exact same

theorem storeAll_congr (msgs : List SecureMessage) : ∀ {store other : MsgStore},
    SameMessages store other →
      SameMessages (storeAll env now store msgs) (storeAll env now other msgs) := by
  induction msgs with
  | nil => exact fun same => same
  | cons smsg msgs ih =>
    exact fun same => ih (storeOne_congr same)

theorem acceptedAt_congr (same : SameMessages store other) (msgs : List SecureMessage) (i : Nat) :
    AcceptedAt env now store msgs i ↔ AcceptedAt env now other msgs i :=
  exists_congr fun smsg => and_congr_right fun _ =>
    accepted_congr (storeAll_congr (msgs.take i) same) smsg

end Same

section Growth

theorem storeOne_dropped (dropped : ¬ Accepted env now store smsg) :
    SameMessages (storeOne env now store smsg) store := by
  unfold storeOne
  split_ifs with valid
  · exact storeMessage_dropped fun stored => dropped ⟨valid, stored⟩
  · exact SameMessages.refl store

theorem storeOne_accepted (accepted : Accepted env now store smsg) :
    storeOne env now store smsg = (storeMessage env now store smsg false).2 :=
  if_pos accepted.1

theorem fileLength_accepted (accepted : Accepted env now store smsg) (time : Int) :
    (fileBytes (storeOne env now store smsg).files (.dat time)).length =
      (fileBytes store.files (.dat time)).length + if time = smsg.bucket then smsg.size else 0 := by
  rw [storeOne_accepted accepted, storeMessage_files accepted.2, fileBytes_appendFile]
  simp only [FileName.dat.injEq]
  split_ifs with same
  · rw [same, List.length_append, Record.bytes_length]
  · rfl

theorem fileLength_storeOne {time : Int} : (fileBytes store.files (.dat time)).length ≤
    (fileBytes (storeOne env now store smsg).files (.dat time)).length := by
  by_cases accepted : Accepted env now store smsg
  · rw [fileLength_accepted accepted]
    exact Nat.le_add_right _ _
  · rw [(storeOne_dropped accepted).files]

theorem fileLength_storeAll (time : Int) (msgs : List SecureMessage) : ∀ store : MsgStore,
    (fileBytes store.files (.dat time)).length ≤
      (fileBytes (storeAll env now store msgs).files (.dat time)).length := by
  induction msgs with
  | nil => exact fun store => le_refl _
  | cons smsg msgs ih =>
    exact fun store => fileLength_storeOne.trans (ih _)

theorem storeAll_same_iff : ∀ store : MsgStore,
    SameMessages (storeAll env now store msgs) store ↔ ∀ i, ¬ AcceptedAt env now store msgs i := by
  induction msgs with
  | nil =>
    intro store
    exact iff_of_true (SameMessages.refl store) (fun i ⟨_, found, _⟩ => nomatch found)
  | cons smsg msgs ih =>
    intro store
    have rest := ih (storeOne env now store smsg)
    constructor
    · intro same
      have dropped : ¬ Accepted env now store smsg := by
        intro accepted
        have longer := fileLength_accepted accepted smsg.bucket
        have grows : _ ≤ (fileBytes (storeAll env now store (smsg :: msgs)).files
          (.dat smsg.bucket)).length := fileLength_storeAll smsg.bucket msgs _
        have size : 0 < smsg.size := Nat.lt_of_lt_of_le (by decide) (Nat.le_add_right 104 _)
        rw [same.files, longer, if_pos rfl] at grows
        omega
      have unchanged := storeOne_dropped dropped
      intro i
      cases i with
      | zero => rwa [acceptedAt_zero]
      | succ i =>
        rw [acceptedAt_succ]
        exact rest.mp (same.trans unchanged.symm) i
    · intro none
      have dropped : ¬ Accepted env now store smsg := fun accepted =>
        none 0 (acceptedAt_zero.mpr accepted)
      have restNone := rest.mpr fun i accepted => none (i + 1) (acceptedAt_succ.mpr accepted)
      exact restNone.trans (storeOne_dropped dropped)

end Growth

end OneByOne

/-! ## The loop -/

/-- Before a message that is accepted in its turn there are only such messages. -/
def InOrder (env : MsgEnv) (now : Int) (store : MsgStore) (msgs : List SecureMessage) : Prop :=
  ∀ i j, i < j → AcceptedAt env now store msgs j → AcceptedAt env now store msgs i

/-- The messages that are stored can be scanned: behind the header stand the payload and the
messages that follow. -/
def ScansFit (receiver : Receiver) (store : MsgStore) (msgs : List SecureMessage) : Prop :=
  ∀ i smsg, msgs[i]? = some smsg →
    Accepted receiver.crypto.toMsgEnv receiver.now
      (storeAll receiver.crypto.toMsgEnv receiver.now store (msgs.take i)) smsg →
    receiver.isLocked = true ∨ ScanFits receiver.crypto receiver.smsgAddresses smsg
      (smsg.body.length + (logBytes (msgs.drop (i + 1))).length)

section Conditions
variable {env : MsgEnv} {now : Int} {receiver : Receiver} {store other : MsgStore}
variable {smsg : SecureMessage} {msgs : List SecureMessage}

theorem inOrder_congr (same : SameMessages store other) :
    InOrder env now store msgs ↔ InOrder env now other msgs := by
  simp only [InOrder, acceptedAt_congr same]

theorem scansFit_congr (same : SameMessages store other) :
    ScansFit receiver store msgs ↔ ScansFit receiver other msgs :=
  forall_congr' fun i => forall_congr' fun smsg => imp_congr_right fun _ =>
    imp_congr_left (accepted_congr (storeAll_congr (msgs.take i) same) smsg)

theorem inOrder_accepted (accepted : Accepted env now store smsg) :
    InOrder env now store (smsg :: msgs) ↔ InOrder env now (storeOne env now store smsg) msgs := by
  constructor
  · intro ordered i j before accepted
    rw [← acceptedAt_succ] at accepted ⊢
    exact ordered (i + 1) (j + 1) (Nat.succ_lt_succ before) accepted
  · intro ordered i j before acceptedLater
    cases i with
    | zero => exact acceptedAt_zero.mpr accepted
    | succ i =>
      cases j with
      | zero => exact absurd before (Nat.not_lt_zero _)
      | succ j =>
        rw [acceptedAt_succ] at acceptedLater ⊢
        exact ordered i j (Nat.lt_of_succ_lt_succ before) acceptedLater

theorem scansFit_accepted
    (accepted : Accepted receiver.env receiver.now store smsg) :
    ScansFit receiver store (smsg :: msgs) ↔
      (receiver.isLocked = true ∨ ScanFits receiver.crypto receiver.smsgAddresses smsg
        (smsg.body.length + (logBytes msgs).length)) ∧
      ScansFit receiver (storeOne receiver.env receiver.now store smsg) msgs := by
  constructor
  · intro fits
    exact ⟨fits 0 smsg rfl accepted, fun i other found => fits (i + 1) other found⟩
  · rintro ⟨first, fits⟩ i other found
    cases i with
    | zero =>
      cases found
      exact fun _ => first
    | succ i => exact fits i other found

theorem conditions_dropped
    (dropped : ¬ Accepted receiver.env receiver.now store smsg) :
    InOrder receiver.env receiver.now store (smsg :: msgs) ∧
        ScansFit receiver store (smsg :: msgs) ↔
      ∀ i, ¬ AcceptedAt receiver.env receiver.now store (smsg :: msgs) i := by
  constructor
  · rintro ⟨ordered, -⟩ i accepted
    cases i with
    | zero => exact dropped (acceptedAt_zero.mp accepted)
    | succ i => exact dropped (acceptedAt_zero.mp (ordered 0 (i + 1) (Nat.succ_pos i) accepted))
  · intro none
    refine ⟨fun i j _ accepted => absurd accepted (none j), fun i other found accepted => ?_⟩
    exact absurd ⟨other, found, accepted⟩ (none i)

end Conditions

/-- The run ends with the messages of the ideal store. -/
def Agrees (result : Option (Node × Peer)) (ideal : MsgStore) : Prop :=
  ∃ node pfrom, result = some (node, pfrom) ∧ SameMessages node.store ideal

section Loop
variable {receiver : Receiver} {vchData : Bytes}

variable {smsg : SecureMessage} {offset : Nat} {msgs : List SecureMessage} {n : UInt32}
  {pfrom : Peer} {node : Node}

theorem sitsAt_drop (inside : offset ≤ vchData.length)
    (rest : vchData.drop offset = logBytes (smsg :: msgs)) :
    SitsAt vchData offset smsg ∧ vchData.drop (offset + smsg.size) = logBytes msgs ∧
      vchData.length - (offset + smsgHdrLen) = smsg.body.length + (logBytes msgs).length := by
  have whole : vchData = vchData.take offset ++ (smsg.bytes ++ logBytes msgs) := by
    rw [← logBytes_cons, ← rest, List.take_append_drop]
  have front : (vchData.take offset).length = offset := List.length_take_of_le inside
  have sits := sitsAt_middle (vchData.take offset) (logBytes msgs) smsg
  rw [← whole, front] at sits
  refine ⟨sits, ?_, ?_⟩
  · rw [← List.drop_drop, rest, logBytes_cons, ← Record.bytes_length, List.drop_left]
  · have total := congrArg List.length rest
    have size : smsg.bytes.length = smsgHdrLen + smsg.body.length := by
      rw [Record.bytes, List.length_append, smsg.headerExact]
      rfl
    rw [List.length_drop, logBytes_cons, List.length_append, size] at total
    omega

theorem agrees_dropped (sits : SitsAt vchData offset smsg)
    (cursor : CursorAt n offset (msgs.length + 1))
    (dropped : ¬ Accepted receiver.env receiver.now node.store smsg) :
    Agrees (receiveLoop receiver vchData (msgs.length + 1) n node pfrom)
        (storeAll receiver.env receiver.now node.store (smsg :: msgs)) ↔
      ∀ i, ¬ AcceptedAt receiver.env receiver.now node.store (smsg :: msgs) i := by
  have refused : Dropped receiver node smsg := fun valid stored => dropped ⟨valid, stored⟩
  obtain ⟨⟨store, pfrom', ended, which⟩, -⟩ := loop_dropped cursor sits refused
  have same : SameMessages store node.store := by
    rcases which with rfl | ⟨valid, rfl⟩
    · exact SameMessages.refl _
    · exact storeMessage_dropped (refused valid)
  rw [ended, ← storeAll_same_iff]
  constructor
  · rintro ⟨last, _, result, agrees⟩
    cases result
    exact agrees.symm.trans same
  · intro unchanged
    exact ⟨_, pfrom', rfl, same.trans unchanged.symm⟩

theorem agrees_congr {result : Option (Node × Peer)} {ideal other : MsgStore}
    (same : SameMessages ideal other) : Agrees result ideal ↔ Agrees result other :=
  exists_congr fun _ => exists_congr fun _ => and_congr_right fun _ =>
    ⟨fun agrees => agrees.trans same, fun agrees => agrees.trans same.symm⟩

theorem agrees_accepted (sits : SitsAt vchData offset smsg)
    (room : vchData.length - (offset + smsgHdrLen) = smsg.body.length + (logBytes msgs).length)
    (cursor : CursorAt n offset (msgs.length + 1))
    (accepted : Accepted receiver.env receiver.now node.store smsg) {good : Prop}
    (behind : ∀ next : Node, SameMessages next.store
        (storeOne receiver.env receiver.now node.store smsg) →
      (Agrees (receiveLoop receiver vchData msgs.length
          (n + (UInt32.ofNat smsgHdrLen + smsg.nPayload)) next pfrom)
        (storeAll receiver.env receiver.now next.store msgs) ↔ good)) :
    Agrees (receiveLoop receiver vchData (msgs.length + 1) n node pfrom)
        (storeAll receiver.env receiver.now node.store (smsg :: msgs)) ↔
      (receiver.isLocked = true ∨ ScanFits receiver.crypto receiver.smsgAddresses smsg
        (smsg.body.length + (logBytes msgs).length)) ∧ good := by
  have small := (small_of_valid accepted.1).2
  have inside : offset + smsgHdrLen ≤ vchData.length :=
    slice_isSome_iff.mp (Option.isSome_of_eq_some sits.slice_header)
  have scans : (secureMsgScanMessage receiver (storeOne receiver.env
      receiver.now node.store smsg).files node.inbox _ _ _).isSome = true ↔ _ :=
    secureMsgScanMessage_isSome_iff (behind_sitsAt sits) small inside
  rw [Pointer.room, room] at scans
  rw [← scans, turn_sits cursor sits]
  simp only [accepted.1, accepted.2, ne_eq, not_true_eq_false, if_false,
    ← storeOne_accepted accepted]
  cases scanned : secureMsgScanMessage receiver (storeOne receiver.env
      receiver.now node.store smsg).files node.inbox ⟨vchData, offset⟩
      ⟨vchData, offset + smsgHdrLen⟩ smsg.nPayload with
  | none =>
    apply iff_of_false
    · intro agrees
      obtain ⟨_, _, result, -⟩ := agrees
      exact absurd result (by simp)
    · intro both
      exact Bool.false_ne_true both.1
  | some scan =>
    have same : SameMessages (Node.scanned (storeOne receiver.env receiver.now
        node.store smsg) scan).store
        (storeOne receiver.env receiver.now node.store smsg) :=
      ⟨fun _ => rfl, scan_keeps_messages scanned⟩
    simp only [Option.bind_some, Option.isSome_some, true_and]
    rw [← behind _ same]
    exact agrees_congr (storeAll_congr msgs same.symm)

theorem receiveLoop_agrees_iff : ∀ n offset node pfrom,
    CursorAt n offset msgs.length → offset ≤ vchData.length →
    vchData.drop offset = logBytes msgs →
    (Agrees (receiveLoop receiver vchData msgs.length n node pfrom)
        (storeAll receiver.env receiver.now node.store msgs) ↔
      InOrder receiver.env receiver.now node.store msgs ∧
        ScansFit receiver node.store msgs) := by
  induction msgs with
  | nil =>
    intro n offset node pfrom _ _ _
    apply iff_of_true ⟨node, pfrom, rfl, SameMessages.refl _⟩
    constructor
    · rintro i j _ ⟨smsg, found, -⟩
      exact nomatch found
    · intro i smsg found
      exact nomatch found
  | cons smsg msgs ih =>
    intro n offset node pfrom cursor inside rest
    obtain ⟨sits, later, room⟩ := sitsAt_drop inside rest
    by_cases accepted : Accepted receiver.env receiver.now node.store smsg
    · rw [inOrder_accepted accepted, scansFit_accepted accepted, and_left_comm]
      apply agrees_accepted sits room cursor accepted
      intro next same
      rw [← inOrder_congr same, ← scansFit_congr same]
      exact ih _ _ next pfrom (cursor.next (small_of_valid accepted.1).2) sits.inside later
    · rw [conditions_dropped accepted]
      exact agrees_dropped sits cursor accepted

end Loop

/-! ## A well-formed bunch -/

/-- Count and bucket time, and exactly as many messages as are counted. -/
structure WellFormed (receiver : Receiver) (vchData : Bytes) (msgs : List SecureMessage) :
    Prop where
  long : 12 ≤ vchData.length
  time : inWindow receiver.now (bunchTime vchData) = true
  count : (leadingCount vchData).toNat = msgs.length
  some : 1 ≤ msgs.length
  few : msgs.length ≤ 500
  messages : vchData.drop 12 = logBytes msgs
  small : ∀ smsg ∈ msgs, smsg.nPayload ≤ smsgMaxMsgWorst

theorem WellFormed.admitted {receiver : Receiver} {vchData : Bytes}
    {msgs : List SecureMessage} (formed : WellFormed receiver vchData msgs) :
    Admitted receiver vchData := by
  have count := formed.count
  refine ⟨formed.long, formed.time, fun zero => ?_, ?_⟩
  · have one := formed.some
    rw [← count, zero] at one
    exact absurd one (by decide)
  · have few := formed.few
    rw [← count] at few
    exact few

/-- The store holds what storing the messages one by one would leave, exactly if no message
to be stored stands behind one that is not, and those that are stored can be scanned. -/
theorem secureMsgReceive_agrees_iff {receiver : Receiver} {vchData : Bytes}
    {msgs : List SecureMessage} (formed : WellFormed receiver vchData msgs) (node : Node)
    (pfrom : Peer) :
    (∃ code node' pfrom', secureMsgReceive receiver node pfrom vchData =
        some (code, node', pfrom') ∧
      SameMessages node'.store
        (storeAll receiver.crypto.toMsgEnv receiver.now node.store msgs)) ↔
      InOrder receiver.crypto.toMsgEnv receiver.now node.store msgs ∧
        ScansFit receiver node.store msgs := by
  have admitted := formed.admitted
  have cursor := cursor_start admitted.few
  rw [formed.count] at cursor
  rw [secureMsgReceive_admitted admitted, formed.count,
    ← receiveLoop_agrees_iff 12 12 node pfrom cursor formed.long formed.messages]
  constructor
  · rintro ⟨code, node', pfrom', result, agrees⟩
    obtain ⟨⟨last, other⟩, looped, finished⟩ := Option.map_eq_some_iff.mp result
    cases finished
    exact ⟨last, other, looped, (finishBunch_same receiver _ last).symm.trans agrees⟩
  · rintro ⟨last, other, looped, agrees⟩
    rw [looped]
    exact ⟨_, _, _, rfl, (finishBunch_same receiver _ last).trans agrees⟩

def lockedReceiver : Receiver := ⟨plainCrypto, 0, true, []⟩

def goodMessage : SecureMessage := ⟨plainHeader 0 16, List.replicate 16 0, by decide, by decide⟩

/-- A message of version 2. -/
def badMessage : SecureMessage :=
  ⟨[0, 0, 0, 0, 2] ++ List.replicate 99 0, [], by decide, by decide⟩

def bunchOf (msgs : List SecureMessage) : Bytes :=
  UInt8.ofNat msgs.length :: List.replicate 11 0 ++ logBytes msgs

/-- The good message stands behind the bad one, and is not stored. -/
theorem secureMsgReceive_misses :
    WellFormed lockedReceiver (bunchOf [badMessage, goodMessage]) [badMessage, goodMessage] ∧
      Accepted plainCrypto.toMsgEnv 0 emptyStore goodMessage ∧
      (secureMsgReceive lockedReceiver emptyNode newPeer
        (bunchOf [badMessage, goodMessage])).map (fun received =>
          (subscriptBucket received.2.1.store.smsgBuckets goodMessage.bucket).setTokens) =
        some [] := by
  refine ⟨⟨by decide +kernel, by decide, by decide, by decide, by decide, by decide +kernel, ?_⟩,
    ⟨by decide +kernel, by decide +kernel⟩, by decide +kernel⟩
  simp only [List.forall_mem_cons]
  exact ⟨by decide, by decide, by simp⟩

/-- The wallet is open, and its address wants to know the sender. -/
def openReceiver : Receiver := ⟨plainCrypto, 0, false, [⟨"own", true, false⟩]⟩

def signedMessage (sender : UInt8) : SecureMessage :=
  ⟨plainHeader 0 96, signedPayload sender, by decide, by simp [signedPayload]; decide⟩

/-- Two messages from different senders, and a bad one behind them. -/
def signedBunch : List SecureMessage := [signedMessage 7, signedMessage 9, badMessage]

theorem scanFits_of_scan {smsg : SecureMessage} {msgs : List SecureMessage}
    (small : smsg.nPayload ≤ smsgMaxMsgWorst)
    (scanned : (secureMsgScanMessage openReceiver ∅ ∅ ⟨smsg.bytes ++ logBytes msgs, 0⟩
      ⟨smsg.bytes ++ logBytes msgs, smsgHdrLen⟩ smsg.nPayload).isSome = true) :
    ScanFits plainCrypto openReceiver.smsgAddresses smsg
      (smsg.body.length + (logBytes msgs).length) := by
  obtain ⟨sits, -, room⟩ := sitsAt_drop (Nat.zero_le _)
    (show (smsg.bytes ++ logBytes msgs).drop 0 = logBytes (smsg :: msgs) by
      rw [List.drop_zero, logBytes_cons])
  have inside : 0 + smsgHdrLen ≤ _ :=
    slice_isSome_iff.mp (Option.isSome_of_eq_some sits.slice_header)
  have fits := (secureMsgScanMessage_isSome_iff (behind_sitsAt sits) small inside).mp
    (by rwa [Nat.zero_add])
  rw [Pointer.room, room] at fits
  exact fits.resolve_left Bool.false_ne_true

/-- Both are stored and come into the inbox. -/
theorem secureMsgReceive_agrees_signed :
    (secureMsgReceive openReceiver emptyNode newPeer (bunchOf signedBunch)).map
        (fun received => received.2.1.inbox.entries.map fun entry => entry.2.sAddrTo) =
      some ["own", "own"] ∧
    ∃ code node pfrom, secureMsgReceive openReceiver emptyNode newPeer (bunchOf signedBunch) =
        some (code, node, pfrom) ∧
      SameMessages node.store (storeAll plainCrypto.toMsgEnv 0 emptyStore signedBunch) := by
  have formed : WellFormed openReceiver (bunchOf signedBunch) signedBunch := by
    refine ⟨by decide +kernel, by decide, by decide, by decide, by decide, by decide +kernel, ?_⟩
    simp only [signedBunch, List.forall_mem_cons]
    exact ⟨by decide, by decide, by decide, by simp⟩
  have first : Accepted plainCrypto.toMsgEnv 0 emptyStore (signedMessage 7) :=
    ⟨by decide +kernel, by decide +kernel⟩
  have second : Accepted plainCrypto.toMsgEnv 0
      (storeOne plainCrypto.toMsgEnv 0 emptyStore (signedMessage 7)) (signedMessage 9) :=
    ⟨by decide +kernel, by decide +kernel⟩
  have last : ∀ store i, ¬ AcceptedAt plainCrypto.toMsgEnv 0 store [badMessage] i := by
    rintro store i ⟨smsg, found, valid, -⟩
    obtain ⟨rfl, rfl⟩ : i = 0 ∧ smsg = badMessage := by
      cases i with
      | zero => exact ⟨rfl, (Option.some.inj found).symm⟩
      | succ i => exact absurd found (by simp)
    exact absurd valid (by decide +kernel)
  refine ⟨by decide +kernel, (secureMsgReceive_agrees_iff formed emptyNode newPeer).mpr ?_⟩
  have rest (store : MsgStore) : InOrder openReceiver.env openReceiver.now store [badMessage] ∧
      ScansFit openReceiver store [badMessage] :=
    (conditions_dropped fun accepted => last store 0 (acceptedAt_zero.mpr accepted)).mpr
      (last store)
  exact ⟨(inOrder_accepted first).mpr ((inOrder_accepted second).mpr (rest _).1),
    (scansFit_accepted first).mpr ⟨.inr (scanFits_of_scan (by decide) (by decide +kernel)),
      (scansFit_accepted second).mpr
        ⟨.inr (scanFits_of_scan (by decide) (by decide +kernel)), (rest _).2⟩⟩⟩

end SynergyMessage.Bunch
