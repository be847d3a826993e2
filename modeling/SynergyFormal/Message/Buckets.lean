import SynergyFormal.Message.Bunch
import SynergyFormal.Lib.Session

/-!
# The life of a bucket

`SecureMsgScanBuckets`, `SecureMsgWalletUnlocked` and the bucket management of
`ThreadSecureMsg`, and what they do to the messages the tokens of a bucket stand for.  A
token holds the offset of its message in the file of its bucket, so the file may only grow
at its end as long as the token is there.  `SecureMsgScanBuckets` removes each file it has
scanned.

The directory holds only the files of the store; no file operation fails and memory is
available.  The alert to a peer whose lock timed out is left out.
-/

set_option autoImplicit false

namespace SynergyMessage.Buckets

open SynergyLib
open Option Wire Slices RecordLog Loop Session SecureMsg Decrypt Scan Receive ReceiveData Bunch
open List hiding le_refl length

/-! ## Scanning whole files -/

/-- The loop over the messages of a file.  Each turn reads a header, so the length of the
file is more than enough turns. -/
def scanFile (receiver : Receiver) (bytes : Bytes) : Nat → Nat → Node → Option Node
  | 0, _, node => some node
  | turns + 1, offset, node =>
    match slice bytes offset smsgHdrLen with
    | none => some node
    | some header =>
      let nPayload := uint32Of (header.drop 100)
      match slice bytes (offset + smsgHdrLen) nPayload.toNat with
      | none => some node
      | some vchData => do
          let _ ← slice vchData 0 1
          let scan ← secureMsgScanMessage receiver node.store.files node.inbox ⟨header, 0⟩
            ⟨vchData, 0⟩ nPayload
          scanFile receiver bytes turns (offset + smsgHdrLen + nPayload.toNat)
            (Node.scanned node.store scan)

def Node.removeFile (node : Node) (name : FileName) : Node :=
  { node with store := { node.store with files := node.store.files.erase name } }

/-- A file that is read to its end and removed. -/
def scanAndRemove (receiver : Receiver) (node : Node) (name : FileName) (bytes : Bytes) :
    Option Node :=
  (scanFile receiver bytes bytes.length 0 node).map (Node.removeFile · name)

def scanBucketFile (receiver : Receiver) (node : Node) (file : Sigma fun _ : FileName => Bytes) :
    Option Node :=
  match file with
  | ⟨.dat time, bytes⟩ =>
    if time < receiver.now - smsgRetention then some (Node.removeFile node (.dat time))
    else scanAndRemove receiver node (.dat time) bytes
  | ⟨.wl time, _⟩ =>
    if time < receiver.now - smsgRetention then some (Node.removeFile node (.wl time))
    else some node

def secureMsgScanBuckets (receiver : Receiver) (fSecMsgEnabled : Bool) (node : Node) :
    Option (Bool × Node) :=
  if !fSecMsgEnabled || receiver.isLocked then some (false, node)
  else (node.store.files.entries.foldlM (scanBucketFile receiver) node).map (true, ·)

def scanLockedFile (receiver : Receiver) (node : Node) (file : Sigma fun _ : FileName => Bytes) :
    Option Node :=
  match file with
  | ⟨.dat _, _⟩ => some node
  | ⟨.wl time, bytes⟩ =>
    if time < receiver.now - smsgRetention then some (Node.removeFile node (.wl time))
    else scanAndRemove receiver node (.wl time) bytes

/-- 0 success, 1 wallet is locked. -/
def secureMsgWalletUnlocked (receiver : Receiver) (fSecMsgEnabled : Bool) (node : Node) :
    Option (Nat × Node) :=
  if !fSecMsgEnabled then some (0, node)
  else if receiver.isLocked then some (1, node)
  else (node.store.files.entries.foldlM (scanLockedFile receiver) node).map (0, ·)

/-! ## Bucket management -/

def tickBucket (bucket : SecMsgBucket) : SecMsgBucket :=
  if 0 < bucket.nLockCount then
    { bucket with
      nLockCount := bucket.nLockCount - 1
      nLockPeerId := if bucket.nLockCount - 1 = 0 then 0 else bucket.nLockPeerId }
  else bucket

def checkBucket (now : Int) (store : MsgStore) (time : Int) : MsgStore :=
  if time < now - smsgRetention then {
    smsgBuckets := store.smsgBuckets.erase time
    files := (store.files.erase (.dat time)).erase (.wl time) }
  else { store with
    smsgBuckets := store.smsgBuckets.insert time
      (tickBucket (subscriptBucket store.smsgBuckets time)) }

/-- One round of the thread over all buckets. -/
def threadSecureMsg (now : Int) (store : MsgStore) : MsgStore :=
  store.smsgBuckets.keys.foldl (checkBucket now) store

/-! ## Runs -/

inductive Event where
  | store (receiver : Receiver) (smsg : SecureMessage) (fUpdateBucket : Bool)
  | receive (receiver : Receiver) (pfrom : Peer) (vchData : Bytes)
  | scanBuckets (receiver : Receiver) (fSecMsgEnabled : Bool)
  | walletUnlocked (receiver : Receiver) (fSecMsgEnabled : Bool)
  | thread (now : Int)

def step (node : Node) : Event → Option Node
  | .store receiver smsg fUpdateBucket =>
    (secureMsgStore receiver.crypto.toMsgEnv receiver.now node.store ⟨smsg.header, 0⟩
      ⟨smsg.body, 0⟩ smsg.nPayload fUpdateBucket).map fun stored =>
        { node with store := stored.2 }
  | .receive receiver pfrom vchData =>
    (secureMsgReceive receiver node pfrom vchData).map fun received => received.2.1
  | .scanBuckets receiver fSecMsgEnabled =>
    (secureMsgScanBuckets receiver fSecMsgEnabled node).map Prod.snd
  | .walletUnlocked receiver fSecMsgEnabled =>
    (secureMsgWalletUnlocked receiver fSecMsgEnabled node).map Prod.snd
  | .thread now => some { node with store := threadSecureMsg now node.store }

/-- Every token lies in the ten minutes of its bucket and leads to its message. -/
def Located (node : Node) : Prop :=
  ∀ time bucket, node.store.smsgBuckets.lookup time = some bucket → ∀ token ∈ bucket.setTokens,
    time ≤ token.timestamp ∧ token.timestamp < time + smsgBucketLen ∧
      ∃ smsg : SecureMessage, secureMsgRetrieve node.store.files token = some smsg.bytes ∧
        smsg.timestamp = token.timestamp ∧ smsg.body.take 8 = token.sample

/-! ## What the tokens rely on -/

/-- The message of a token stands in the file of its bucket. -/
structure Indexed (files : Files) (time : Int) (token : SecMsgToken) : Prop where
  past : 0 ≤ token.timestamp
  bucket : bucketOf token.timestamp = time
  message : ∃ smsg : SecureMessage, SitsAt (fileBytes files (.dat time)) token.offset smsg ∧
    smsg.key = token.key ∧ ¬ smsg.nPayload.toInt32 < 8

def AllIndexed (store : MsgStore) : Prop :=
  ∀ time, ∀ token ∈ (subscriptBucket store.smsgBuckets time).setTokens,
    Indexed store.files time token

theorem bucketOf_window {timestamp : Int} (past : 0 ≤ timestamp) :
    bucketOf timestamp ≤ timestamp ∧ timestamp < bucketOf timestamp + smsgBucketLen := by
  unfold bucketOf smsgBucketLen
  rw [Int.tmod_eq_emod_of_nonneg past]
  omega

variable {files : Files} {time : Int} {token : SecMsgToken} {node : Node} {vchData : Bytes}
  {receiver : Receiver} {store : MsgStore}

theorem lookup_of_fileBytes {name : FileName} (filled : fileBytes files name ≠ []) :
    files.lookup name = some (fileBytes files name) := by
  unfold fileBytes at filled ⊢
  cases found : files.lookup name with
  | none =>
    rw [found] at filled
    exact absurd rfl filled
  | some bytes => rfl

theorem sample_of_long {smsg : SecureMessage} (long : ¬ smsg.nPayload.toInt32 < 8) :
    smsg.sample = smsg.body.take 8 := if_neg long

theorem nPayload_of_long {nPayload : UInt32} (long : ¬ nPayload.toInt32 < 8) :
    8 ≤ nPayload.toNat ∧ nPayload.toNat < 2 ^ 31 := by
  rw [toInt32_lt_eight_iff, not_or] at long
  exact ⟨Nat.not_lt.mp long.1, Nat.not_le.mp long.2⟩

theorem Indexed.retrieve (indexed : Indexed files time token) :
    ∃ smsg : SecureMessage, secureMsgRetrieve files token = some smsg.bytes ∧
      smsg.timestamp = token.timestamp ∧ smsg.body.take 8 = token.sample := by
  obtain ⟨smsg, sits, key, long⟩ := indexed.message
  obtain ⟨sameTime, sameSample⟩ : smsg.timestamp = token.timestamp ∧
    smsg.sample = token.sample := Prod.mk.inj key
  refine ⟨smsg, ?_, sameTime, (sample_of_long long).symm.trans sameSample⟩
  have filled : fileBytes files (.dat time) ≠ [] := by
    intro empty
    have inside : token.offset + (104 + messageFormat.bodyLen smsg.header) ≤ _ := sits.inside
    rw [empty, length_nil] at inside
    omega
  have whole : slice (fileBytes files (.dat time)) (token.offset + smsgHdrLen)
      (messageFormat.bodyLen smsg.header) = some smsg.body := by
    have body : slice _ (token.offset + smsgHdrLen) _ = _ := sits.body (le_refl _)
    rw [body, take_of_length_le smsg.bodyExact.le]
  have header : slice (fileBytes files (.dat time)) token.offset smsgHdrLen = some smsg.header :=
    sits.slice_header
  have small : smsgHdrLen + messageFormat.bodyLen smsg.header < 2 ^ 32 := by
    have bound : messageFormat.bodyLen smsg.header < 2 ^ 31 := (nPayload_of_long long).2
    have header : smsgHdrLen = 104 := rfl
    omega
  unfold secureMsgRetrieve
  rw [indexed.bucket, lookup_of_fileBytes filled]
  simp only [header, whole, bind_eq_bind, bind_some, if_pos small]
  rfl

theorem AllIndexed.located (indexed : AllIndexed node.store) : Located node := by
  intro time bucket found token member
  have tokenIndexed := indexed time token (by rw [subscriptBucket, found]; exact member)
  obtain ⟨low, high⟩ := bucketOf_window tokenIndexed.past
  rw [tokenIndexed.bucket] at low high
  exact ⟨low, high, tokenIndexed.retrieve⟩

theorem allIndexed_empty : AllIndexed emptyStore := nofun

section Steps
variable {other : MsgStore}

theorem AllIndexed.congr (indexed : AllIndexed store) (same : SameMessages other store) :
    AllIndexed other := by
  intro time token member
  rw [same.tokens] at member
  obtain ⟨past, bucket, message⟩ := indexed time token member
  rw [← same.files] at message
  exact ⟨past, bucket, message⟩

theorem mem_of_insertToken {other : SecMsgToken} {tokens : List SecMsgToken}
    (member : other ∈ insertToken token tokens) : other = token ∨ other ∈ tokens := by
  induction tokens with
  | nil => exact Or.inl (mem_singleton.mp member)
  | cons first rest ih =>
    unfold insertToken at member
    split_ifs at member
    · exact mem_cons.mp member
    · rcases mem_cons.mp member with here | later
      · exact Or.inr (here ▸ mem_cons_self)
      · exact (ih later).imp_right (mem_cons_of_mem first)
    · exact Or.inr member

theorem AllIndexed.stored (indexed : AllIndexed store) {env : MsgEnv} {now : Int}
    {smsg : SecureMessage} (fUpdateBucket : Bool) (late : smsgRetention ≤ now)
    (long : ¬ smsg.nPayload.toInt32 < 8) :
    AllIndexed (storeMessage env now store smsg fUpdateBucket).2 := by
  by_cases stored : (storeMessage env now store smsg fUpdateBucket).1 = 0
  · have inside := ((storeMessage_code_iff _ _ _ _ _).mp stored).1
    have past : 0 ≤ smsg.timestamp := by
      simp only [inWindow, Bool.and_eq_true, decide_eq_true_eq] at inside
      exact (sub_nonneg.mpr late).trans inside.2
    intro time token member
    rw [storeMessage_tokens stored] at member
    rw [storeMessage_files stored]
    by_cases here : time = smsg.bucket
    · rw [if_pos here] at member
      rw [here] at member ⊢
      have file : fileBytes (appendFile store.files (.dat smsg.bucket) smsg.bytes)
          (.dat smsg.bucket) = fileBytes store.files (.dat smsg.bucket) ++ smsg.bytes := by
        rw [fileBytes_appendFile, if_pos rfl]
      rcases mem_of_insertToken member with rfl | old
      · constructor
        · rwa [tokenFor_timestamp]
        · rw [tokenFor_timestamp, SecureMessage.bucket]
        · refine ⟨smsg, ?_, tokenFor_key.symm, long⟩
          rw [file, tokenFor_offset]
          exact sitsAt_end _ smsg
      · obtain ⟨tokenPast, bucket, message, sits, key, messageLong⟩ := indexed _ token old
        refine ⟨tokenPast, bucket, message, ?_, key, messageLong⟩
        rw [file]
        exact sits.append smsg.bytes
    · rw [if_neg here] at member
      obtain ⟨tokenPast, bucket, message⟩ := indexed time token member
      have otherFile : fileBytes (appendFile store.files (.dat smsg.bucket) smsg.bytes)
          (.dat time) = fileBytes store.files (.dat time) := by
        rw [fileBytes_appendFile, if_neg (by simpa using here)]
      rw [← otherFile] at message
      exact ⟨tokenPast, bucket, message⟩
  · exact indexed.congr (storeMessage_dropped stored)

end Steps

/-! ## Receiving -/

/-- Every message the loop comes to, if it is valid, has eight bytes of payload. -/
def LongMessages (receiver : Receiver) (vchData : Bytes) (offset : Nat) (node : Node) : Prop :=
  ∀ (smsg : SecureMessage) count later last,
    Comes receiver vchData offset node count later last → SitsAt vchData later smsg →
      validateMessage receiver.crypto.toMsgEnv smsg = 0 → ¬ smsg.nPayload.toInt32 < 8

theorem receiveLoop_indexed (late : smsgRetention ≤ receiver.now) (left : Nat) :
    ∀ n offset node pfrom,
    CursorAt n offset left → offset ≤ vchData.length →
    LongMessages receiver vchData offset node → AllIndexed node.store →
    ∀ last pfrom', receiveLoop receiver vchData left n node pfrom = some (last, pfrom') →
      AllIndexed last.store := by
  induction left with
  | zero =>
    intro n offset node pfrom _ _ _ indexed last pfrom' run
    cases run
    exact indexed
  | succ left ih =>
    intro n offset node pfrom cursor inside long indexed last pfrom' run
    rcases receiveLoop_cases cursor inside run with
      same | ⟨smsg, store, scan, ⟨sits, valid, stored, scanned⟩, rest⟩
    · exact indexed.congr same
    · have added : AllIndexed store := by
        have kept : AllIndexed (storing receiver node smsg).2 :=
          indexed.stored false late (long smsg 0 offset node .here sits valid)
        rwa [stored] at kept
      have same : SameMessages (Node.scanned store scan).store store :=
        ⟨fun _ => rfl, scan_keeps_messages scanned⟩
      refine ih _ _ (Node.scanned store scan) pfrom
        (cursor.next (small_of_valid valid).2) sits.inside ?_ (added.congr same) last pfrom' rest
      intro other count later final comes
      exact long other (count + 1) later final (.next sits valid stored scanned comes)

theorem secureMsgReceive_indexed {last : Node} {pfrom pfrom' : Peer} {code : Nat}
    (late : smsgRetention ≤ receiver.now) (long : LongMessages receiver vchData 12 node)
    (indexed : AllIndexed node.store)
    (run : secureMsgReceive receiver node pfrom vchData = some (code, last, pfrom')) :
    AllIndexed last.store := by
  by_cases admitted : Admitted receiver vchData
  · rw [secureMsgReceive_admitted admitted] at run
    obtain ⟨⟨looped, other⟩, loop, finished⟩ := map_eq_some_iff.mp run
    cases finished
    have kept := receiveLoop_indexed late _ 12 12 node pfrom (cursor_start admitted.few)
      admitted.long long indexed looped other loop
    exact kept.congr (finishBunch_same receiver _ looped)
  · obtain ⟨_, _, _, ended, same⟩ := secureMsgReceive_turned_away admitted
    cases ended.symm.trans run
    exact indexed.congr same

/-! ## Files that are read and removed -/

section Removal
variable {last : Node}

variable {bytes : Bytes} {name : FileName} {file : Sigma fun _ : FileName => Bytes}
  {fSecMsgEnabled : Bool}

theorem scanFile_same (turns : Nat) : ∀ offset node,
    scanFile receiver bytes turns offset node = some last → SameMessages last.store node.store := by
  induction turns with
  | zero =>
    intro offset node run
    cases run
    exact SameMessages.refl _
  | succ turns ih =>
    intro offset node run
    simp only [scanFile] at run
    split at run
    · cases run
      exact SameMessages.refl _
    · split at run
      · cases run
        exact SameMessages.refl _
      · obtain ⟨_, -, rest⟩ := bind_eq_some_iff.mp run
        obtain ⟨scan, scanned, rest⟩ := bind_eq_some_iff.mp rest
        exact (ih _ _ rest).trans ⟨fun _ => rfl, scan_keeps_messages scanned⟩

theorem fileBytes_erase {other : FileName} (differ : other ≠ name) :
    fileBytes (files.erase name) other = fileBytes files other := by
  rw [fileBytes, AList.lookup_erase_ne differ, fileBytes]

theorem removeFile_wl_same (node : Node) (time : Int) :
    SameMessages (Node.removeFile node (.wl time)).store node.store :=
  ⟨fun _ => rfl, fun _ => fileBytes_erase (by simp)⟩

theorem scanAndRemove_tokens (run : scanAndRemove receiver node name bytes = some last)
    (time : Int) : (subscriptBucket last.store.smsgBuckets time).setTokens =
      (subscriptBucket node.store.smsgBuckets time).setTokens := by
  obtain ⟨scanned, scan, removed⟩ := map_eq_some_iff.mp run
  rw [← removed]
  exact (scanFile_same _ _ _ scan).tokens time

theorem scanLockedFile_same (run : scanLockedFile receiver node file = some last) :
    SameMessages last.store node.store := by
  obtain ⟨name, bytes⟩ := file
  cases name with
  | dat time =>
    cases run
    exact SameMessages.refl _
  | wl time =>
    simp only [scanLockedFile] at run
    split_ifs at run
    · cases run
      exact removeFile_wl_same node time
    · obtain ⟨scanned, scan, removed⟩ := map_eq_some_iff.mp run
      rw [← removed]
      exact (removeFile_wl_same scanned time).trans (scanFile_same _ _ _ scan)

theorem scanBucketFile_tokens (run : scanBucketFile receiver node file = some last) (time : Int) :
    (subscriptBucket last.store.smsgBuckets time).setTokens =
      (subscriptBucket node.store.smsgBuckets time).setTokens := by
  obtain ⟨name, bytes⟩ := file
  cases name with
  | dat fileTime =>
    simp only [scanBucketFile] at run
    split_ifs at run
    · cases run
      rfl
    · exact scanAndRemove_tokens run time
  | wl fileTime =>
    simp only [scanBucketFile] at run
    split_ifs at run
    · cases run
      rfl
    · cases run
      rfl

theorem walletUnlocked_same {code : Nat}
    (run : secureMsgWalletUnlocked receiver fSecMsgEnabled node = some (code, last)) :
    SameMessages last.store node.store := by
  unfold secureMsgWalletUnlocked at run
  split_ifs at run
  · cases run
    exact SameMessages.refl _
  · cases run
    exact SameMessages.refl _
  · obtain ⟨final, loop, result⟩ := map_eq_some_iff.mp run
    cases result
    exact (foldlM_rule (fun state => SameMessages state.store node.store) (fun _ => True)
      (fun state file next same moved => ⟨(scanLockedFile_same moved).trans same, trivial⟩)
      _ (SameMessages.refl _) loop).1

theorem scanBuckets_tokens {code : Bool}
    (run : secureMsgScanBuckets receiver fSecMsgEnabled node = some (code, last)) (time : Int) :
    (subscriptBucket last.store.smsgBuckets time).setTokens =
      (subscriptBucket node.store.smsgBuckets time).setTokens := by
  unfold secureMsgScanBuckets at run
  split_ifs at run
  · cases run
    rfl
  · obtain ⟨final, loop, result⟩ := map_eq_some_iff.mp run
    cases result
    exact (foldlM_rule (fun state => (subscriptBucket state.store.smsgBuckets time).setTokens =
        (subscriptBucket node.store.smsgBuckets time).setTokens) (fun _ => True)
      (fun state file next same moved => ⟨(scanBucketFile_tokens moved time).trans same, trivial⟩)
      _ rfl loop).1

end Removal

theorem tickBucket_setTokens (bucket : SecMsgBucket) :
    (tickBucket bucket).setTokens = bucket.setTokens := by
  unfold tickBucket
  split_ifs <;> rfl

theorem AllIndexed.checkBucket (indexed : AllIndexed store) (now time : Int) :
    AllIndexed (checkBucket now store time) := by
  unfold Buckets.checkBucket
  split_ifs
  · intro other token member
    by_cases here : other = time
    · rw [here, subscriptBucket, AList.lookup_erase] at member
      exact absurd member not_mem_nil
    · rw [subscriptBucket, AList.lookup_erase_ne here] at member
      obtain ⟨past, bucket, message⟩ := indexed other token member
      refine ⟨past, bucket, ?_⟩
      rw [fileBytes_erase (by simp), fileBytes_erase (by simpa using here)]
      exact message
  · refine indexed.congr ⟨fun other => ?_, fun _ => rfl⟩
    rw [subscriptBucket_insert]
    split_ifs with same
    · rw [same, tickBucket_setTokens]
    · rfl

theorem AllIndexed.thread (indexed : AllIndexed store) (now : Int) :
    AllIndexed (threadSecureMsg now store) := by
  unfold threadSecureMsg
  generalize store.smsgBuckets.keys = times
  induction times generalizing store with
  | nil => exact indexed
  | cons time times ih => exact ih (indexed.checkBucket now time)

/-! ## Every run -/

/-- No bucket file is removed by a scan, messages that are stored have eight bytes of
payload, and the clock is past the first two days. -/
def Careful (node : Node) : Event → Prop
  | .store receiver smsg _ => smsgRetention ≤ receiver.now ∧ ¬ smsg.nPayload.toInt32 < 8
  | .receive receiver _ vchData =>
    smsgRetention ≤ receiver.now ∧ LongMessages receiver vchData 12 node
  | .scanBuckets receiver fSecMsgEnabled =>
    (!fSecMsgEnabled || receiver.isLocked) = true ∨
      ∀ time, node.store.files.lookup (.dat time) = none
  | .walletUnlocked _ _ => True
  | .thread _ => True

theorem AllIndexed.no_tokens (indexed : AllIndexed store)
    (missing : store.files.lookup (.dat time) = none) :
    (subscriptBucket store.smsgBuckets time).setTokens = [] := by
  apply eq_nil_iff_forall_not_mem.mpr
  intro token member
  obtain ⟨-, -, smsg, sits, -⟩ := indexed time token member
  have inside : token.offset + (104 + messageFormat.bodyLen smsg.header) ≤ _ := sits.inside
  rw [fileBytes, missing, getD_none, length_nil] at inside
  omega

theorem step_indexed {next : Node} {event : Event} (indexed : AllIndexed node.store)
    (careful : Careful node event) (moved : step node event = some next) :
    AllIndexed next.store := by
  cases event with
  | store receiver smsg fUpdateBucket =>
    obtain ⟨stored, run, result⟩ := map_eq_some_iff.mp moved
    rw [behind_own.store] at run
    cases run
    rw [← result]
    exact indexed.stored fUpdateBucket careful.1 careful.2
  | receive receiver pfrom vchData =>
    obtain ⟨⟨code, last, pfrom'⟩, run, result⟩ := map_eq_some_iff.mp moved
    cases result
    exact secureMsgReceive_indexed careful.1 careful.2 indexed run
  | scanBuckets receiver fSecMsgEnabled =>
    obtain ⟨⟨code, last⟩, run, result⟩ := map_eq_some_iff.mp moved
    cases result
    rcases careful with early | missing
    · rw [secureMsgScanBuckets, if_pos early] at run
      cases run
      exact indexed
    · intro time token member
      rw [scanBuckets_tokens run, indexed.no_tokens (missing time)] at member
      exact nomatch member
  | walletUnlocked receiver fSecMsgEnabled =>
    obtain ⟨⟨code, last⟩, run, result⟩ := map_eq_some_iff.mp moved
    cases result
    exact indexed.congr (walletUnlocked_same run)
  | thread now =>
    cases moved
    exact indexed.thread now

/-- In every state of a run of careful steps from the empty store the tokens lead to their
messages. -/
theorem tokens_locate_messages {node : Node}
    (reached : Reached step Careful emptyNode node) : Located node :=
  AllIndexed.located (reached.invariant (fun state => AllIndexed state.store) allIndexed_empty
    fun _ _ _ indexed careful moved => step_indexed indexed careful moved)

def lateReceiver : Receiver := ⟨plainCrypto, smsgRetention, false, []⟩

/-- Two messages of one bucket: the second is found behind the first. -/
theorem tokens_locate_stored : ∃ node,
    [.store lateReceiver (signedMessage 7) true, .store lateReceiver (signedMessage 9) true].foldlM
        step emptyNode = some node ∧
      (node.store.smsgBuckets.lookup 0).map (fun bucket => bucket.setTokens.map
        SecMsgToken.offset) = some [0, 200] ∧
      Located node := by
  have offsets : ([Event.store lateReceiver (signedMessage 7) true,
      .store lateReceiver (signedMessage 9) true].foldlM step emptyNode).map (fun node =>
        (node.store.smsgBuckets.lookup 0).map fun bucket => bucket.setTokens.map
          SecMsgToken.offset) = some (some [0, 200]) := by decide +kernel
  obtain ⟨node, run, found⟩ := map_eq_some_iff.mp offsets
  have steps := run
  simp only [foldlM_cons, foldlM_nil, bind_pure, bind_eq_bind, bind_eq_some_iff] at steps
  obtain ⟨first, stored, moved⟩ := steps
  have reached : Reached step Careful emptyNode first :=
    .call (.store lateReceiver (signedMessage 7) true) .refl ⟨le_refl _, by decide⟩ stored
  exact ⟨node, run, found, tokens_locate_messages (.call
    (.store lateReceiver (signedMessage 9) true) reached ⟨le_refl _, by decide⟩ moved)⟩

/-- A message of the right version without payload. -/
def shortMessage : SecureMessage := ⟨plainHeader 0 0, [], by decide, by decide⟩

theorem not_located
    (tokens : (node.store.smsgBuckets.lookup time).map SecMsgBucket.setTokens = some [token])
    (lost : ∀ smsg : SecureMessage, secureMsgRetrieve node.store.files token = some smsg.bytes →
      smsg.body.take 8 ≠ token.sample) : ¬ Located node := by
  intro located
  obtain ⟨bucket, found, only⟩ := map_eq_some_iff.mp tokens
  obtain ⟨-, -, smsg, retrieved, -, sample⟩ :=
    located time bucket found token (by rw [only]; exact mem_singleton_self token)
  exact lost smsg retrieved sample

/-- A message that is stored is lost when the buckets are scanned; and the token of a message
with a short payload does not hold the first bytes of it. -/
theorem tokens_lose_messages :
    (∃ node, [.store lateReceiver goodMessage true, .scanBuckets lateReceiver true].foldlM step
        emptyNode = some node ∧ ¬ Located node) ∧
      ∃ node, [.store lateReceiver shortMessage true].foldlM step emptyNode = some node ∧
        ¬ Located node := by
  have scanned : ([Event.store lateReceiver goodMessage true, .scanBuckets lateReceiver true].foldlM
      step emptyNode).map (fun node =>
        ((node.store.smsgBuckets.lookup 0).map SecMsgBucket.setTokens,
          secureMsgRetrieve node.store.files ⟨0, replicate 8 0, 0⟩)) =
      some (some [⟨0, replicate 8 0, 0⟩], none) := by decide +kernel
  have short : ([Event.store lateReceiver shortMessage true].foldlM step emptyNode).map
      (fun node => ((node.store.smsgBuckets.lookup 0).map SecMsgBucket.setTokens,
        (secureMsgRetrieve node.store.files ⟨0, replicate 8 0, 0⟩).map List.length)) =
      some (some [⟨0, replicate 8 0, 0⟩], some 104) := by decide +kernel
  constructor
  · obtain ⟨node, run, facts⟩ := map_eq_some_iff.mp scanned
    obtain ⟨tokens, gone⟩ := Prod.mk.inj facts
    refine ⟨node, run, not_located tokens fun smsg retrieved => ?_⟩
    exact nomatch gone.symm.trans retrieved
  · obtain ⟨node, run, facts⟩ := map_eq_some_iff.mp short
    obtain ⟨tokens, length⟩ := Prod.mk.inj facts
    refine ⟨node, run, not_located tokens fun smsg retrieved sample => ?_⟩
    -- the whole message is a header, so it has no eight bytes of payload
    rw [retrieved, map_some, some.injEq, Record.bytes, length_append, smsg.headerExact] at length
    have eight := congrArg List.length sample
    rw [length_take, length_replicate] at eight
    have header : messageFormat.headerLen = 104 := rfl
    omega

end SynergyMessage.Buckets
