import SynergyFormal.Message.Scan

/-!
# A bunch of messages

`SecureMsgReceive`: a peer sends a count, a bucket time and the messages one after another.
The loop takes the length of each message from its header, and moves on only behind a
message that was stored: a message that does not validate is looked at again for as long as
the count lasts, and one that is not stored ends the loop.
-/

set_option autoImplicit false

namespace SynergyMessage.Receive

open SynergyLib
open Wire Slices RecordLog SecureMsg Scan
open Option hiding guard

/-- The commands of the protocol. -/
inductive Command where
  | smsgInv
  | smsgShow
  | smsgHave
  | smsgWant
  | smsgMsg
  | smsgMatch
  | smsgPing
  | smsgPong
  | smsgDisabled
  | smsgIgnore
  deriving DecidableEq

structure Peer where
  nPeerId : UInt32
  ignoreUntil : Int
  lastMatched : Int
  fEnabled : Bool
  nMisbehavior : Nat
  /-- `PushMessage`, the last first. -/
  pushed : List (Command × Bytes)

def Peer.misbehaving (pfrom : Peer) (howmuch : Nat) : Peer :=
  { pfrom with nMisbehavior := pfrom.nMisbehavior + howmuch }

def Peer.pushMessage (pfrom : Peer) (command : Command) (bytes : Bytes) : Peer :=
  { pfrom with pushed := (command, bytes) :: pfrom.pushed }

structure Node where
  store : MsgStore
  inbox : Inbox

def Node.setBuckets (node : Node) (smsgBuckets : Buckets) : Node :=
  { node with store := { node.store with smsgBuckets := smsgBuckets } }

/-- The state behind a message that was scanned. -/
def Node.scanned (store : MsgStore) (scan : Scanned) : Node :=
  ⟨{ store with files := scan.files }, scan.inbox⟩

/-- `n` is an `uint32_t`; the difference in the guard is unsigned, and so not small if `n`
lies behind the end. -/
def receiveLoop (receiver : Receiver) (vchData : Bytes) :
    Nat → UInt32 → Node → Peer → Option (Node × Peer)
  | 0, _, node, pfrom => some (node, pfrom)
  | left + 1, n, node, pfrom =>
    if n.toNat ≤ vchData.length ∧ vchData.length - n.toNat < smsgHdrLen then
      some (node, pfrom)
    else do
      let pHeader : Pointer := ⟨vchData, n.toNat⟩
      let pPayload : Pointer := ⟨vchData, (n + UInt32.ofNat smsgHdrLen).toNat⟩
      let nPayload := uint32Of (← nPayloadField pHeader)
      let rv ← secureMsgValidate receiver.crypto.toMsgEnv pHeader pPayload nPayload
      if rv ≠ 0 then
        receiveLoop receiver vchData left n node (pfrom.misbehaving (if rv = 2 then 10 else 1))
      else
        let stored ← secureMsgStore receiver.crypto.toMsgEnv receiver.now node.store
          pHeader pPayload nPayload false
        if stored.1 ≠ 0 then some ({ node with store := stored.2 }, pfrom)
        else
          let scan ← secureMsgScanMessage receiver stored.2.files node.inbox
            pHeader pPayload nPayload
          receiveLoop receiver vchData left (n + (UInt32.ofNat smsgHdrLen + nPayload))
            (Node.scanned stored.2 scan) pfrom

/-- `itb->second.nLockCount = 0`, if the bucket exists. -/
def releaseLock (smsgBuckets : Buckets) (bktTime : Int) : Buckets :=
  match smsgBuckets.lookup bktTime with
  | none => smsgBuckets
  | some bucket => smsgBuckets.insert bktTime { bucket with nLockCount := 0 }

/-- Behind the loop: release the lock, and hash what was added. -/
def finishBunch (receiver : Receiver) (bktTime : Int) (node : Node) : Nat × Node :=
  match node.store.smsgBuckets.lookup bktTime with
  | none => (1, node)
  | some bucket =>
    let released := { bucket with nLockCount := 0, nLockPeerId := 0 }
    (0, node.setBuckets (node.store.smsgBuckets.insert bktTime
      (hashBucket receiver.crypto.toMsgEnv receiver.now released)))

def secureMsgReceive (receiver : Receiver) (node : Node) (pfrom : Peer) (vchData : Bytes) :
    Option (Nat × Node × Peer) := do
  if vchData.length < 12 then return (1, node, pfrom)
  else
    let nBunch := uint32Of (← slice vchData 0 4)
    let bktTime := int64Of (← slice vchData 4 8)
    if !inWindow receiver.now bktTime then return (1, node, pfrom)
    else if nBunch = 0 ∨ 500 < nBunch then
      return (1, node.setBuckets (releaseLock node.store.smsgBuckets bktTime),
        pfrom.misbehaving 1)
    else
      let looped ← receiveLoop receiver vchData nBunch.toNat 12 node pfrom
      let finished := finishBunch receiver bktTime looped.1
      return (finished.1, finished.2, looped.2)

/-! ## One turn of the loop -/

/-- The cursor and the offset it stands for, with room for `left` more messages. -/
structure CursorAt (n : UInt32) (offset left : Nat) : Prop where
  value : n.toNat = offset
  room : offset + left * 4322 + 104 < 4294967296

section Loop
variable {receiver : Receiver} {vchData : Bytes} {n : UInt32} {offset left : Nat}
variable {node : Node} {pfrom : Peer} {smsg : SecureMessage} {header : Bytes}

theorem CursorAt.payload (cursor : CursorAt n offset left) :
    (n + UInt32.ofNat smsgHdrLen).toNat = offset + smsgHdrLen := by
  have value : (UInt32.ofNat smsgHdrLen).toNat = smsgHdrLen := by decide
  have room := cursor.room
  rw [UInt32.toNat_add, value, cursor.value, Nat.mod_eq_of_lt]
  unfold smsgHdrLen
  omega

theorem CursorAt.same (cursor : CursorAt n offset (left + 1)) : CursorAt n offset left := by
  have fewer : left * 4322 ≤ (left + 1) * 4322 := Nat.mul_le_mul_right _ (Nat.le_succ left)
  refine ⟨cursor.value, Nat.lt_of_le_of_lt ?_ cursor.room⟩
  apply Nat.add_le_add_right
  exact Nat.add_le_add_left fewer offset

variable (cursor : CursorAt n offset (left + 1)) (sits : SitsAt vchData offset smsg)
variable (read : slice vchData offset smsgHdrLen = some header)
  (cut : vchData.length < offset + smsgHdrLen + (uint32Of (header.drop 100)).toNat)

include cursor

theorem CursorAt.next (small : smsg.nPayload ≤ smsgMaxMsgWorst) :
    CursorAt (n + (UInt32.ofNat smsgHdrLen + smsg.nPayload)) (offset + smsg.size) left := by
  have bound := toNat_le_worst small
  have room := cursor.room
  have size : smsg.size = smsgHdrLen + smsg.nPayload.toNat := rfl
  have header : smsgHdrLen = 104 := rfl
  refine ⟨?_, by omega⟩
  rw [UInt32.toNat_add, inboxSize small, cursor.value, ← size, Nat.mod_eq_of_lt (by omega)]

theorem turn_short (inside : offset ≤ vchData.length)
    (short : vchData.length < offset + smsgHdrLen) :
    receiveLoop receiver vchData (left + 1) n node pfrom = some (node, pfrom) := by
  rw [receiveLoop, cursor.value, if_pos ⟨inside, by omega⟩]

include read in
theorem turn_header : receiveLoop receiver vchData (left + 1) n node pfrom =
      let pHeader : Pointer := ⟨vchData, offset⟩
      let pPayload : Pointer := ⟨vchData, offset + smsgHdrLen⟩
      let nPayload := uint32Of (header.drop 100)
      (secureMsgValidate receiver.env pHeader pPayload nPayload).bind fun rv =>
        if rv ≠ 0 then
          receiveLoop receiver vchData left n node (pfrom.misbehaving (if rv = 2 then 10 else 1))
        else
          (secureMsgStore receiver.env receiver.now node.store pHeader pPayload
            nPayload false).bind fun stored =>
          if stored.1 ≠ 0 then some ({ node with store := stored.2 }, pfrom)
          else
            (secureMsgScanMessage receiver stored.2.files node.inbox pHeader pPayload
              nPayload).bind fun scan =>
            receiveLoop receiver vchData left (n + (UInt32.ofNat smsgHdrLen + nPayload))
              (Node.scanned stored.2 scan) pfrom := by
  have inside := slice_isSome_iff.mp (isSome_of_eq_some read)
  have field : nPayloadField ⟨vchData, offset⟩ = some (header.drop 100) := by
    rw [slice_inside inside, some.injEq] at read
    have inner : offset + 100 + 4 ≤ vchData.length := inside
    rw [nPayloadField, Pointer.read, slice_inside inner, ← read, List.drop_take, List.drop_drop]
    rfl
  have guard : ¬ (offset ≤ vchData.length ∧ vchData.length - offset < smsgHdrLen) := by omega
  rw [receiveLoop, cursor.value, if_neg guard, cursor.payload]
  simp only [field, bind_eq_bind, bind_some]

include sits in
theorem turn_sits : receiveLoop receiver vchData (left + 1) n node pfrom =
      let rv := validateMessage receiver.env smsg
      let stored := storeMessage receiver.env receiver.now node.store smsg false
      if rv ≠ 0 then
        receiveLoop receiver vchData left n node (pfrom.misbehaving (if rv = 2 then 10 else 1))
      else if stored.1 ≠ 0 then some ({ node with store := stored.2 }, pfrom)
      else
        (secureMsgScanMessage receiver stored.2.files node.inbox ⟨vchData, offset⟩
          ⟨vchData, offset + smsgHdrLen⟩ smsg.nPayload).bind fun scan =>
        receiveLoop receiver vchData left (n + (UInt32.ofNat smsgHdrLen + smsg.nPayload))
          (Node.scanned stored.2 scan) pfrom := by
  have behind := behind_sitsAt sits
  have nPayload : uint32Of (smsg.header.drop 100) = smsg.nPayload := rfl
  rw [turn_header cursor sits.slice_header]
  simp only [nPayload, behind.validate, behind.store, bind_some]

omit cursor
include read in
theorem loop_refused {rv : Nat}
    (refused : secureMsgValidate receiver.env ⟨vchData, offset⟩
      ⟨vchData, offset + smsgHdrLen⟩ (uint32Of (header.drop 100)) = some rv) (invalid : rv ≠ 0) :
    ∀ pfrom, CursorAt n offset left →
      ∃ pfrom', receiveLoop receiver vchData left n node pfrom = some (node, pfrom') := by
  induction left with
  | zero => exact fun pfrom _ => ⟨pfrom, rfl⟩
  | succ left ih =>
    intro pfrom cursor
    rw [turn_header cursor read]
    simp only [refused, bind_some, if_pos invalid]
    exact ih _ cursor.same

/-! ## When the loop stays inside the vector -/

/-- From a message at `offset`, the loop gets `count` messages further: each is valid, is
stored and is scanned. -/
inductive Comes (receiver : Receiver) (vchData : Bytes) :
    Nat → Node → Nat → Nat → Node → Prop where
  | here {offset : Nat} {node : Node} : Comes receiver vchData offset node 0 offset node
  | next {offset count later : Nat} {node last : Node} {smsg : SecureMessage} {store : MsgStore}
      {scan : Scanned}
      (sits : SitsAt vchData offset smsg)
      (valid : validateMessage receiver.crypto.toMsgEnv smsg = 0)
      (stored : storeMessage receiver.crypto.toMsgEnv receiver.now node.store smsg false =
        (0, store))
      (scanned : secureMsgScanMessage receiver store.files node.inbox ⟨vchData, offset⟩
        ⟨vchData, offset + smsgHdrLen⟩ smsg.nPayload = some scan)
      (rest : Comes receiver vchData (offset + smsg.size) (Node.scanned store scan) count later
        last) :
      Comes receiver vchData offset node (count + 1) later last

/-- A message whose header promises a payload that would be read has that payload, and can
be scanned if it is stored. -/
def MessageFits (receiver : Receiver) (vchData : Bytes) (offset : Nat) (node : Node) : Prop :=
  ∀ header, slice vchData offset smsgHdrLen = some header →
    (header.drop 4).take 1 = [1] → uint32Of (header.drop 100) ≤ smsgMaxMsgWorst →
      offset + smsgHdrLen + (uint32Of (header.drop 100)).toNat ≤ vchData.length ∧
      ∀ smsg, SitsAt vchData offset smsg →
        validateMessage receiver.crypto.toMsgEnv smsg = 0 →
        (storeMessage receiver.crypto.toMsgEnv receiver.now node.store smsg false).1 = 0 →
        receiver.isLocked = true ∨ ScanFits receiver.crypto receiver.smsgAddresses smsg
          (vchData.length - (offset + smsgHdrLen))

theorem small_of_valid {env : MsgEnv} (valid : validateMessage env smsg = 0) :
    (smsg.header.drop 4).take 1 = [1] ∧ smsg.nPayload ≤ smsgMaxMsgWorst := by
  unfold validateMessage at valid
  split_ifs at valid with version large
  exact ⟨not_not.mp version, UInt32.not_lt.mp large⟩

include read cut in
/-- Of a message that is cut off only the header is read, unless its payload is to be
hashed. -/
theorem validate_cut {env : MsgEnv} :
    secureMsgValidate env ⟨vchData, offset⟩ ⟨vchData, offset + smsgHdrLen⟩
        (uint32Of (header.drop 100)) =
      if (header.drop 4).take 1 ≠ [1] then some 4
      else if smsgMaxMsgWorst < uint32Of (header.drop 100) then some 5 else none := by
  have inside := slice_isSome_iff.mp (isSome_of_eq_some read)
  have field : ∀ skip count, skip + count ≤ smsgHdrLen →
      slice vchData (offset + skip) count = some ((header.drop skip).take count) := by
    intro skip count inner
    rw [slice_inside inside, some.injEq] at read
    rw [slice_inside (by omega), ← read, List.drop_take, List.take_take, List.drop_drop,
      Nat.min_eq_left (by omega)]
  have version : versionField ⟨vchData, offset⟩ = some _ := field 4 1 (by decide)
  have nonse : nonseField ⟨vchData, offset⟩ = some _ := field 96 4 (by decide)
  have text : Pointer.read ⟨vchData, offset⟩ 4 (smsgHdrLen - 4) = some _ :=
    field 4 (smsgHdrLen - 4) (by decide)
  have payload : Pointer.read ⟨vchData, offset + smsgHdrLen⟩ 0
      (uint32Of (header.drop 100)).toNat = none := slice_outside cut
  simp only [secureMsgValidate, version, nonse, text, payload, bind_eq_bind,
    bind_some, bind_none, Option.pure_def]

/-- `SecureMsgStore` in the loop. -/
abbrev storing (receiver : Receiver) (node : Node) (smsg : SecureMessage) : Nat × MsgStore :=
  storeMessage receiver.env receiver.now node.store smsg false

/-- The message ends the loop. -/
abbrev Dropped (receiver : Receiver) (node : Node) (smsg : SecureMessage) : Prop :=
  validateMessage receiver.env smsg = 0 → (storing receiver node smsg).1 ≠ 0

/-- The message at `offset` is valid, is stored and is scanned. -/
structure Taken (receiver : Receiver) (vchData : Bytes) (offset : Nat) (node : Node)
    (smsg : SecureMessage) (store : MsgStore) (scan : Scanned) : Prop where
  sits : SitsAt vchData offset smsg
  valid : validateMessage receiver.env smsg = 0
  stored : storing receiver node smsg = (0, store)
  scanned : secureMsgScanMessage receiver store.files node.inbox ⟨vchData, offset⟩
    ⟨vchData, offset + smsgHdrLen⟩ smsg.nPayload = some scan

include sits in
theorem messageFits_sits_iff : MessageFits receiver vchData offset node ↔
      (validateMessage receiver.env smsg = 0 →
        (storing receiver node smsg).1 = 0 →
        receiver.isLocked = true ∨ ScanFits receiver.crypto receiver.smsgAddresses smsg
          (vchData.length - (offset + smsgHdrLen))) := by
  constructor
  · intro fits valid stored
    obtain ⟨version, small⟩ := small_of_valid valid
    exact (fits _ sits.slice_header version small).2 smsg sits valid stored
  · intro fits header read version small
    obtain rfl : smsg.header = header := some.inj (sits.slice_header.symm.trans read)
    refine ⟨?_, fun other otherSits valid stored => ?_⟩
    · have inside := sits.inside
      rwa [Record.size, ← Nat.add_assoc] at inside
    · obtain rfl := sits.unique otherSits
      exact fits valid stored

/-- All the messages the loop comes to fit: this one does, and those behind it. -/
def AllFit (receiver : Receiver) (vchData : Bytes) (offset : Nat) (node : Node) (left : Nat) :
    Prop :=
  ∀ count later last, Comes receiver vchData offset node count later last → count < left →
    MessageFits receiver vchData later last

theorem allFit_here_iff
    (ends : ∀ smsg store scan, ¬ Taken receiver vchData offset node smsg store scan) :
    AllFit receiver vchData offset node (left + 1) ↔ MessageFits receiver vchData offset node := by
  constructor
  · intro fits
    exact fits 0 offset node Comes.here (Nat.succ_pos left)
  · intro fits count later last comes _
    cases comes with
    | here => exact fits
    | next sits valid stored scanned rest =>
      exact absurd ⟨sits, valid, stored, scanned⟩ (ends _ _ _)

theorem allFit_next_iff {store : MsgStore} {scan : Scanned}
    (taken : Taken receiver vchData offset node smsg store scan) :
    AllFit receiver vchData offset node (left + 1) ↔
      MessageFits receiver vchData offset node ∧
        AllFit receiver vchData (offset + smsg.size) (Node.scanned store scan) left := by
  constructor
  · intro fits
    refine ⟨fits 0 offset node Comes.here (Nat.succ_pos left), fun count later last comes few => ?_⟩
    exact fits (count + 1) later last
      (Comes.next taken.sits taken.valid taken.stored taken.scanned comes) (Nat.succ_lt_succ few)
  · rintro ⟨first, fits⟩ count later last comes few
    cases comes with
    | here => exact first
    | next otherSits _ otherStored otherScanned rest =>
      obtain rfl := taken.sits.unique otherSits
      cases taken.stored.symm.trans otherStored
      cases taken.scanned.symm.trans otherScanned
      exact fits _ later last rest (Nat.lt_of_succ_lt_succ few)

include cursor read cut in
/-- A message that is cut off is refused for what its header says, or its payload is read
outside. -/
theorem loop_cut : ((header.drop 4).take 1 = [1] ∧ uint32Of (header.drop 100) ≤ smsgMaxMsgWorst ∧
        receiveLoop receiver vchData (left + 1) n node pfrom = none) ∨
      (¬ ((header.drop 4).take 1 = [1] ∧ uint32Of (header.drop 100) ≤ smsgMaxMsgWorst) ∧
        ∃ pfrom', receiveLoop receiver vchData (left + 1) n node pfrom = some (node, pfrom')) := by
  have validated : secureMsgValidate receiver.env _ _ _ = _ := validate_cut read cut
  by_cases hashed : (header.drop 4).take 1 = [1] ∧ uint32Of (header.drop 100) ≤ smsgMaxMsgWorst
  · rw [if_neg (not_not.mpr hashed.1), if_neg (UInt32.not_lt.mpr hashed.2)] at validated
    refine Or.inl ⟨hashed.1, hashed.2, ?_⟩
    simp only [turn_header cursor read, validated, bind_none]
  · have refused : ∃ rv, rv ≠ 0 ∧ secureMsgValidate receiver.env
        ⟨vchData, offset⟩ ⟨vchData, offset + smsgHdrLen⟩ (uint32Of (header.drop 100)) =
          some rv := by
      split_ifs at validated with version large
      · exact ⟨4, by decide, validated⟩
      · exact ⟨5, by decide, validated⟩
      · exact absurd ⟨not_not.mp version, UInt32.not_lt.mp large⟩ hashed
    obtain ⟨rv, invalid, refused⟩ := refused
    exact Or.inr ⟨hashed, loop_refused read refused invalid pfrom cursor⟩

include cursor read cut in
theorem loop_cut_iff : (receiveLoop receiver vchData (left + 1) n node pfrom).isSome = true ↔
      AllFit receiver vchData offset node (left + 1) := by
  have ends : ∀ smsg : SecureMessage, ¬ SitsAt vchData offset smsg := by
    intro smsg sits
    obtain rfl : smsg.header = header := some.inj (sits.slice_header.symm.trans read)
    have whole : offset + (smsgHdrLen + (uint32Of (smsg.header.drop 100)).toNat) ≤
      vchData.length := sits.inside
    omega
  rw [allFit_here_iff fun smsg _ _ taken => ends smsg taken.sits]
  rcases loop_cut cursor read cut with ⟨version, small, outside⟩ | ⟨refused, pfrom', ended⟩
  · rw [outside]
    apply iff_of_false Bool.false_ne_true
    intro fits
    have inside := (fits header read version small).1
    omega
  · rw [ended]
    apply iff_of_true rfl
    intro header' read' version small
    obtain rfl : header = header' := some.inj (read.symm.trans read')
    exact absurd ⟨version, small⟩ refused

include cursor sits in
theorem loop_dropped (dropped : Dropped receiver node smsg) :
    (∃ store pfrom', receiveLoop receiver vchData (left + 1) n node pfrom =
        some ({ node with store := store }, pfrom') ∧
      (store = node.store ∨ validateMessage receiver.env smsg = 0 ∧
        store = (storing receiver node smsg).2)) ∧
      AllFit receiver vchData offset node (left + 1) := by
  constructor
  · by_cases valid : validateMessage receiver.env smsg = 0
    · simp only [turn_sits cursor sits, valid, ne_eq, not_true_eq_false, if_false,
        dropped valid, not_false_eq_true, if_true]
      exact ⟨_, pfrom, rfl, Or.inr ⟨trivial, rfl⟩⟩
    · obtain ⟨pfrom', ended⟩ :=
        loop_refused sits.slice_header ((behind_sitsAt sits).validate _) valid pfrom cursor
      exact ⟨node.store, pfrom', ended, Or.inl rfl⟩
  · rw [allFit_here_iff]
    · rw [messageFits_sits_iff sits]
      exact fun valid stored => absurd stored (dropped valid)
    · intro other _ _ taken
      obtain rfl := sits.unique taken.sits
      exact absurd (congrArg Prod.fst taken.stored) (dropped taken.valid)

include cursor in
/-- What a turn of a loop that ends can do: nothing more is stored, or one message is, and
the loop goes on behind it. -/
theorem receiveLoop_cases {last : Node} {pfrom' : Peer} (inside : offset ≤ vchData.length)
    (run : receiveLoop receiver vchData (left + 1) n node pfrom = some (last, pfrom')) :
    SameMessages last.store node.store ∨
      ∃ smsg store scan, Taken receiver vchData offset node smsg store scan ∧
        receiveLoop receiver vchData left (n + (UInt32.ofNat smsgHdrLen + smsg.nPayload))
          (Node.scanned store scan) pfrom = some (last, pfrom') := by
  rcases sitsAt_cases messageFormat vchData offset with
    short | ⟨header, read, cut⟩ | ⟨smsg, sits⟩
  · rw [turn_short cursor inside short] at run
    cases run
    exact Or.inl (SameMessages.refl _)
  · rcases loop_cut cursor read cut with ⟨-, -, outside⟩ | ⟨-, other, ended⟩
    · exact nomatch outside.symm.trans run
    · cases ended.symm.trans run
      exact Or.inl (SameMessages.refl _)
  by_cases dropped : Dropped receiver node smsg
  · obtain ⟨⟨store, other, ended, which⟩, -⟩ := loop_dropped cursor sits dropped
    cases ended.symm.trans run
    rcases which with rfl | ⟨valid, rfl⟩
    · exact Or.inl (SameMessages.refl _)
    · exact Or.inl (storeMessage_dropped (dropped valid))
  · obtain ⟨valid, succeeded⟩ := Classical.not_imp.mp dropped
    obtain ⟨store, stored⟩ : ∃ store, storing receiver node smsg = (0, store) :=
      ⟨_, Prod.ext (not_not.mp succeeded) rfl⟩
    simp only [turn_sits cursor sits, valid, stored, ne_eq, not_true_eq_false, if_false] at run
    obtain ⟨scan, scanned, rest⟩ := bind_eq_some_iff.mp run
    exact Or.inr ⟨smsg, store, scan, ⟨sits, valid, stored, scanned⟩, rest⟩

include cursor sits in
theorem loop_sits_iff
    (behind : ∀ n offset node pfrom, CursorAt n offset left → offset ≤ vchData.length →
      ((receiveLoop receiver vchData left n node pfrom).isSome = true ↔
        AllFit receiver vchData offset node left)) :
    (receiveLoop receiver vchData (left + 1) n node pfrom).isSome = true ↔
      AllFit receiver vchData offset node (left + 1) := by
  by_cases dropped : Dropped receiver node smsg
  · obtain ⟨⟨store, pfrom', ended, -⟩, fits⟩ := loop_dropped cursor sits dropped
    rw [ended]
    exact iff_of_true rfl fits
  · obtain ⟨valid, succeeded⟩ := Classical.not_imp.mp dropped
    have small := (small_of_valid valid).2
    have inside : offset + smsgHdrLen ≤ vchData.length :=
      slice_isSome_iff.mp (isSome_of_eq_some sits.slice_header)
    obtain ⟨store, stored⟩ : ∃ store, storing receiver node smsg = (0, store) :=
      ⟨_, Prod.ext (not_not.mp succeeded) rfl⟩
    have scans : (secureMsgScanMessage receiver store.files node.inbox _ _ _).isSome = true ↔ _ :=
      secureMsgScanMessage_isSome_iff (behind_sitsAt sits) small inside
    have fits : MessageFits receiver vchData offset node ↔ _ := messageFits_sits_iff sits
    simp only [valid, stored, forall_const] at fits
    simp only [turn_sits cursor sits, valid, stored, ne_eq, not_true_eq_false, if_false]
    cases scanned : secureMsgScanMessage receiver store.files node.inbox ⟨vchData, offset⟩
        ⟨vchData, offset + smsgHdrLen⟩ smsg.nPayload with
    | none =>
      rw [scanned] at scans
      apply iff_of_false Bool.false_ne_true
      intro all
      have first := all 0 offset node Comes.here (Nat.succ_pos left)
      exact Bool.false_ne_true (scans.mpr (fits.mp first))
    | some scan =>
      rw [scanned] at scans
      rw [bind_some, allFit_next_iff ⟨sits, valid, stored, scanned⟩,
        behind _ _ _ _ (cursor.next small) sits.inside]
      exact (and_iff_right (fits.mpr (scans.mp rfl))).symm

theorem receiveLoop_isSome_iff : ∀ n offset node pfrom,
    CursorAt n offset left → offset ≤ vchData.length →
    ((receiveLoop receiver vchData left n node pfrom).isSome = true ↔
      AllFit receiver vchData offset node left) := by
  induction left with
  | zero =>
    intro n offset node pfrom _ _
    exact iff_of_true rfl (fun _ _ _ _ few => absurd few (Nat.not_lt_zero _))
  | succ left ih =>
    intro n offset node pfrom cursor inside
    rcases sitsAt_cases messageFormat vchData offset with
      short | ⟨header, read, cut⟩ | ⟨smsg, sits⟩
    · replace short : vchData.length < offset + smsgHdrLen := short
      rw [turn_short cursor inside short, allFit_here_iff]
      · apply iff_of_true rfl
        intro header read
        exact absurd (isSome_of_eq_some read) (by rw [slice_outside short]; decide)
      · intro smsg _ _ taken
        have whole : offset + (smsgHdrLen + _) ≤ vchData.length := taken.sits.inside
        omega
    · exact loop_cut_iff cursor read cut
    · exact loop_sits_iff cursor sits ih

/-! ## The whole call -/

def leadingCount (vchData : Bytes) : UInt32 := uint32Of ((vchData.drop 0).take 4)

def bunchTime (vchData : Bytes) : Int := int64Of ((vchData.drop 4).take 8)

/-- The loop is reached. -/
structure Admitted (receiver : Receiver) (vchData : Bytes) : Prop where
  long : 12 ≤ vchData.length
  time : inWindow receiver.now (bunchTime vchData) = true
  some : leadingCount vchData ≠ 0
  few : leadingCount vchData ≤ 500

theorem cursor_start (few : leadingCount vchData ≤ 500) :
    CursorAt 12 12 (leadingCount vchData).toNat := by
  have bound : (leadingCount vchData).toNat ≤ 500 := few
  exact ⟨rfl, by omega⟩

theorem secureMsgReceive_long (long : 12 ≤ vchData.length) :
    secureMsgReceive receiver node pfrom vchData =
      if !inWindow receiver.now (bunchTime vchData) then some (1, node, pfrom)
      else if leadingCount vchData = 0 ∨ 500 < leadingCount vchData then
        some (1, node.setBuckets (releaseLock node.store.smsgBuckets (bunchTime vchData)),
          pfrom.misbehaving 1)
      else
        (receiveLoop receiver vchData (leadingCount vchData).toNat 12 node pfrom).map fun looped =>
          ((finishBunch receiver (bunchTime vchData) looped.1).1,
            (finishBunch receiver (bunchTime vchData) looped.1).2, looped.2) := by
  have first : slice vchData 0 4 = some _ := slice_inside (by omega)
  have second : slice vchData 4 8 = some _ := slice_inside (by omega)
  have count : uint32Of ((vchData.drop 0).take 4) = leadingCount vchData := rfl
  have time : int64Of ((vchData.drop 4).take 8) = bunchTime vchData := rfl
  simp only [secureMsgReceive, if_neg (Nat.not_lt.mpr long), first, second, count, time,
    bind_eq_bind, bind_some, Option.pure_def]
  rw [map_eq_bind]
  rfl

theorem secureMsgReceive_admitted (admitted : Admitted receiver vchData) :
    secureMsgReceive receiver node pfrom vchData =
      (receiveLoop receiver vchData (leadingCount vchData).toNat 12 node pfrom).map fun looped =>
        ((finishBunch receiver (bunchTime vchData) looped.1).1,
          (finishBunch receiver (bunchTime vchData) looped.1).2, looped.2) := by
  rw [secureMsgReceive_long admitted.long, admitted.time, Bool.not_true, if_neg Bool.false_ne_true,
    if_neg (not_or.mpr ⟨admitted.some, UInt32.not_lt.mpr admitted.few⟩)]

theorem setBucket_same {bktTime : Int} {bucket other : SecMsgBucket}
    (found : node.store.smsgBuckets.lookup bktTime = some bucket)
    (tokens : other.setTokens = bucket.setTokens) :
    SameMessages (node.setBuckets (node.store.smsgBuckets.insert bktTime other)).store
      node.store := by
  refine ⟨fun time => ?_, fun time => rfl⟩
  change (subscriptBucket (node.store.smsgBuckets.insert bktTime other) time).setTokens = _
  rw [subscriptBucket_insert]
  split_ifs with same
  · rw [same, subscriptBucket, found]
    exact tokens
  · rfl

theorem releaseLock_same {bktTime : Int} :
    SameMessages (node.setBuckets (releaseLock node.store.smsgBuckets bktTime)).store
      node.store := by
  unfold releaseLock
  cases found : node.store.smsgBuckets.lookup bktTime with
  | none => exact SameMessages.refl _
  | some bucket => exact setBucket_same found rfl

theorem finishBunch_same (receiver : Receiver) (bktTime : Int) (node : Node) :
    SameMessages (finishBunch receiver bktTime node).2.store node.store := by
  unfold finishBunch
  cases found : node.store.smsgBuckets.lookup bktTime with
  | none => exact SameMessages.refl _
  | some bucket => exact setBucket_same found rfl

theorem secureMsgReceive_turned_away (refused : ¬ Admitted receiver vchData) :
    ∃ code last pfrom', secureMsgReceive receiver node pfrom vchData =
      some (code, last, pfrom') ∧ SameMessages last.store node.store := by
  by_cases long : vchData.length < 12
  · refine ⟨1, node, pfrom, ?_, SameMessages.refl _⟩
    simp only [secureMsgReceive, if_pos long, Option.pure_def]
  · rw [secureMsgReceive_long (Nat.not_lt.mp long)]
    split_ifs with late number
    · exact ⟨1, node, pfrom, rfl, SameMessages.refl _⟩
    · exact ⟨1, _, _, rfl, releaseLock_same⟩
    · obtain ⟨nonzero, few⟩ := not_or.mp number
      have window : inWindow receiver.now (bunchTime vchData) = true := by simpa using late
      exact absurd ⟨Nat.not_lt.mp long, window, nonzero, UInt32.not_lt.mp few⟩ refused

theorem secureMsgReceive_isSome_iff : (secureMsgReceive receiver node pfrom vchData).isSome = true ↔
      (Admitted receiver vchData →
        AllFit receiver vchData 12 node (leadingCount vchData).toNat) := by
  by_cases admitted : Admitted receiver vchData
  · rw [secureMsgReceive_admitted admitted, isSome_map,
      receiveLoop_isSome_iff _ _ _ _ (cursor_start admitted.few) admitted.long]
    exact ⟨fun fits _ => fits, fun fits => fits admitted⟩
  · obtain ⟨code, last, pfrom', ended, -⟩ := secureMsgReceive_turned_away admitted
    rw [ended]
    exact iff_of_true rfl (fun impossible => absurd impossible admitted)

end Loop

end SynergyMessage.Receive
