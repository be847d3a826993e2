import SynergyFormal.Message.Buckets

/-!
# Rebuilding the index at a restart

`SecureMsgBuildBucketSet` reads the file of each bucket from its start and makes a token
for each message it comes to.  It gets back the tokens of `SecureMsgStore` exactly if every
message of the bucket has a payload of at least eight bytes: a shorter one is passed over
without its payload.
-/

set_option autoImplicit false

namespace SynergyMessage.Rebuild

open SynergyLib
open Wire Slices RecordLog SecureMsg Decrypt Receive Bunch Buckets
open List hiding le_refl lookup set

/-! ## SecureMsgBuildBucketSet -/

/-- The loop over a file.  Each turn reads a header, so the length of the file is more than
enough turns. -/
def readTokens (bytes : Bytes) : Nat → Nat → List SecMsgToken → List SecMsgToken
  | 0, _, tokenSet => tokenSet
  | turns + 1, ofs, tokenSet =>
    match slice bytes ofs smsgHdrLen with
    | none => tokenSet
    | some header =>
      let timestamp := int64Of ((header.drop 7).take 8)
      let nPayload := uint32Of (header.drop 100)
      if nPayload < 8 then readTokens bytes turns (ofs + smsgHdrLen) tokenSet
      else
        match slice bytes (ofs + smsgHdrLen) 8 with
        | none => tokenSet
        | some sample =>
          -- fseek may go behind the end of the file
          readTokens bytes turns (ofs + smsgHdrLen + nPayload.toNat)
            (insertToken ⟨timestamp, sample, ofs⟩ tokenSet)

def buildBucket (env : MsgEnv) (now : Int) (store : MsgStore)
    (file : Sigma fun _ : FileName => Bytes) : MsgStore :=
  match file with
  | ⟨.dat fileTime, bytes⟩ =>
    if fileTime < now - smsgRetention then
      { store with files := store.files.erase (.dat fileTime) }
    else
      let bucket := subscriptBucket store.smsgBuckets fileTime
      let read := { bucket with setTokens := readTokens bytes bytes.length 0 bucket.setTokens }
      { store with smsgBuckets := store.smsgBuckets.insert fileTime (hashBucket env now read) }
  | ⟨.wl fileTime, _⟩ =>
    if fileTime < now - smsgRetention then
      { store with files := store.files.erase (.wl fileTime) }
    else store

def secureMsgBuildBucketSet (env : MsgEnv) (now : Int) (store : MsgStore) : MsgStore :=
  store.files.entries.foldl (buildBucket env now) store

/-! ## Messages stored one after another -/

/-- The store after the messages were stored, each of them valid and not refused. -/
inductive StoredRun (env : MsgEnv) : List SecureMessage → MsgStore → Prop where
  | start : StoredRun env [] emptyStore
  | store {msgs : List SecureMessage} {before after : MsgStore} {smsg : SecureMessage}
      {now : Int} {fUpdateBucket : Bool} (run : StoredRun env msgs before)
      (valid : secureMsgValidate env ⟨smsg.header, 0⟩ ⟨smsg.body, 0⟩ smsg.nPayload = some 0)
      (stored : secureMsgStore env now before ⟨smsg.header, 0⟩ ⟨smsg.body, 0⟩ smsg.nPayload
        fUpdateBucket = some (0, after)) :
      StoredRun env (msgs ++ [smsg]) after

def inBucket (time : Int) (msgs : List SecureMessage) : List SecureMessage :=
  msgs.filter fun smsg => smsg.bucket = time

/-- The token of a message at an offset. -/
def tokenAt (message : Nat × SecureMessage) : SecMsgToken :=
  let smsg : SecureMessage := message.2
  ⟨smsg.timestamp, smsg.sample, message.1⟩

variable {smsg : SecureMessage} {time : Int} {msgs messages : List SecureMessage}
  {fUpdateBucket : Bool}

theorem tokenAt_key {offset : Nat} : (tokenAt (offset, smsg)).key = smsg.key := by
  simp only [SecMsgToken.key, SecureMessage.key, tokenAt]

/-- The tokens of messages with their offsets, in the order they are inserted. -/
def tokensOf (tokenSet : List SecMsgToken) (messages : List (Nat × SecureMessage)) :
    List SecMsgToken :=
  messages.foldl (fun set message => insertToken (tokenAt message) set) tokenSet

theorem tokensOf_append {tokenSet : List SecMsgToken} {first second : List (Nat × SecureMessage)} :
    tokensOf tokenSet (first ++ second) = tokensOf (tokensOf tokenSet first) second :=
  List.foldl_append

/-! ## Insertion -/

section Insertion
variable {token other : SecMsgToken} {tokens : List SecMsgToken}

theorem key_eq_of_not_before (first : ¬ token.before other) (second : ¬ other.before token) :
    other.key = token.key := by
  unfold SecMsgToken.before at first second
  by_cases sameTime : token.timestamp = other.timestamp
  · rw [if_pos sameTime] at first
    rw [if_pos sameTime.symm] at second
    have sameSample : other.sample = token.sample := List.le_antisymm first second
    rw [SecMsgToken.key, SecMsgToken.key, sameTime, sameSample]
  · rw [if_neg sameTime] at first
    rw [if_neg (Ne.symm sameTime)] at second
    omega

theorem mem_insertToken_self (fresh : ∀ old ∈ tokens, old.key ≠ token.key) :
    token ∈ insertToken token tokens := by
  induction tokens with
  | nil => exact mem_singleton_self token
  | cons first rest ih =>
    rw [forall_mem_cons] at fresh
    unfold insertToken
    split_ifs with earlier later
    · exact mem_cons_self
    · exact mem_cons_of_mem first (ih fresh.2)
    · exact absurd (key_eq_of_not_before earlier later) fresh.1

theorem mem_insertToken_of_mem (member : other ∈ tokens) : other ∈ insertToken token tokens := by
  induction tokens with
  | nil => exact nomatch member
  | cons first rest ih =>
    unfold insertToken
    split_ifs
    · exact mem_cons_of_mem token member
    · rcases mem_cons.mp member with here | later
      · exact here ▸ mem_cons_self
      · exact mem_cons_of_mem first (ih later)
    · exact member

end Insertion

/-! ## What a run leaves behind -/

/-- What a run leaves in a bucket and in its file. -/
structure Holds (store : MsgStore) (time : Int) (messages : List SecureMessage) : Prop where
  file : fileBytes store.files (.dat time) = logBytes messages
  tokens : (subscriptBucket store.smsgBuckets time).setTokens = tokensOf [] (placed 0 messages)
  small : ∀ smsg ∈ messages, smsg.nPayload ≤ smsgMaxMsgWorst
  present : ∀ message ∈ placed 0 messages,
    tokenAt message ∈ (subscriptBucket store.smsgBuckets time).setTokens
  unused : messages = [] →
    store.smsgBuckets.lookup time = none ∧ store.files.lookup (.dat time) = none
  used : messages ≠ [] → ∃ bucket, store.smsgBuckets.lookup time = some bucket

theorem inBucket_append : inBucket time (msgs ++ [smsg]) =
      if time = smsg.bucket then inBucket time msgs ++ [smsg] else inBucket time msgs := by
  rw [inBucket, filter_append, ← inBucket]
  split_ifs with here
  · rw [filter_cons_of_pos (by simpa using here.symm), filter_nil]
  · rw [filter_cons_of_neg (by simpa using Ne.symm here), filter_nil, append_nil]

variable {now : Int} {store : MsgStore} {env : MsgEnv}

theorem Holds.stored (held : Holds store smsg.bucket messages)
    (small : smsg.nPayload ≤ smsgMaxMsgWorst)
    (stored : (storeMessage env now store smsg fUpdateBucket).1 = 0) :
    Holds (storeMessage env now store smsg fUpdateBucket).2 smsg.bucket (messages ++ [smsg]) := by
  have last : placed 0 (messages ++ [smsg]) =
      placed 0 messages ++ [((logBytes messages).length, smsg)] := by
    rw [placed_append, Nat.zero_add]
    rfl
  have tokens : (subscriptBucket (storeMessage env now store smsg fUpdateBucket).2.smsgBuckets
      smsg.bucket).setTokens = insertToken (tokenAt ((logBytes messages).length, smsg))
        (subscriptBucket store.smsgBuckets smsg.bucket).setTokens := by
    rw [storeMessage_tokens stored, if_pos rfl, tokenFor, held.file]
    rfl
  have fresh := ((storeMessage_code_iff _ _ _ _ _).mp stored).2
  constructor
  case file =>
    rw [storeMessage_files stored, fileBytes_appendFile, if_pos rfl, held.file, logBytes_append]
    rw [logBytes_cons, logBytes_nil, append_nil]
  case tokens =>
    rw [tokens, last, tokensOf_append, held.tokens]
    rfl
  case small =>
    intro other member
    rcases mem_append.mp member with old | new
    · exact held.small other old
    · rw [mem_singleton.mp new]
      exact small
  case present =>
    intro message member
    rw [tokens]
    rw [last] at member
    rcases mem_append.mp member with old | new
    · exact mem_insertToken_of_mem (held.present message old)
    · rw [mem_singleton.mp new]
      apply mem_insertToken_self
      intro old inOld same
      exact fresh old inOld (same.trans tokenAt_key)
  case unused =>
    intro empty
    exact absurd empty (by simp)
  case used =>
    intro _
    rw [storeMessage_stored stored, AList.lookup_insert]
    exact ⟨_, rfl⟩

theorem Holds.stored_elsewhere (held : Holds store time messages) (elsewhere : time ≠ smsg.bucket)
    (stored : (storeMessage env now store smsg fUpdateBucket).1 = 0) :
    Holds (storeMessage env now store smsg fUpdateBucket).2 time messages := by
  have otherFile : FileName.dat time ≠ .dat smsg.bucket := by simpa using elsewhere
  have lookup : (storeMessage env now store smsg fUpdateBucket).2.smsgBuckets.lookup time =
      store.smsgBuckets.lookup time := by
    rw [storeMessage_stored stored]
    exact AList.lookup_insert_ne elsewhere
  have files : (storeMessage env now store smsg fUpdateBucket).2.files.lookup (.dat time) =
      store.files.lookup (.dat time) := by
    rw [storeMessage_files stored, appendFile]
    exact AList.lookup_insert_ne otherFile
  obtain ⟨file, tokens, small, present, unused, used⟩ := held
  unfold subscriptBucket at tokens present
  unfold fileBytes at file
  rw [← lookup] at tokens unused used
  rw [← files] at file unused
  simp only [← lookup] at present
  exact ⟨file, tokens, small, present, unused, used⟩

theorem StoredRun.holds (run : StoredRun env msgs store) (time : Int) :
    Holds store time (inBucket time msgs) := by
  induction run with
  | start =>
    exact ⟨rfl, rfl, nofun, nofun, fun _ => ⟨rfl, rfl⟩, fun filled => absurd rfl filled⟩
  | @store msgs before after smsg now fUpdateBucket run valid stored ih =>
    rw [behind_own.validate, Option.some.injEq] at valid
    rw [behind_own.store, Option.some.injEq] at stored
    obtain ⟨succeeded, result⟩ : (storeMessage env now before smsg fUpdateBucket).1 = 0 ∧
        (storeMessage env now before smsg fUpdateBucket).2 = after := by
      rw [stored]
      exact ⟨rfl, rfl⟩
    rw [← result, inBucket_append]
    split_ifs with here
    · rw [here] at ih ⊢
      exact ih.stored (small_of_valid valid).2 succeeded
    · exact ih.stored_elsewhere here succeeded

/-! ## Reading a file back -/

def Long (smsg : SecureMessage) : Prop := 8 ≤ smsg.nPayload

instance (smsg : SecureMessage) : Decidable (Long smsg) :=
  inferInstanceAs (Decidable (8 ≤ smsg.nPayload))

theorem exists_first_short (someShort : ¬ ∀ smsg ∈ messages, Long smsg) :
    ∃ before smsg after, messages = before ++ smsg :: after ∧ ¬ Long smsg ∧
      ∀ other ∈ before, Long other := by
  obtain ⟨smsg, first⟩ : ∃ smsg, messages.find? (fun smsg => ¬ Long smsg) = some smsg := by
    rw [← Option.isSome_iff_exists, List.find?_isSome]
    simpa using someShort
  obtain ⟨short, before, after, split, longBefore⟩ := List.find?_eq_some_iff_append.mp first
  exact ⟨before, smsg, after, split, by simpa using short, by simpa using longBefore⟩

section Reading
variable {bytes : Bytes} {offset : Nat}

theorem sample_of_small (long : Long smsg) (small : smsg.nPayload ≤ smsgMaxMsgWorst) :
    smsg.sample = smsg.body.take 8 := by
  apply sample_of_long
  rw [toInt32_lt_eight_iff]
  have low : 8 ≤ smsg.nPayload.toNat := long
  have high := toNat_le_worst small
  omega

theorem readTokens_sits (sits : SitsAt bytes offset smsg)
    (small : smsg.nPayload ≤ smsgMaxMsgWorst) (turns : Nat) (tokenSet : List SecMsgToken) :
    (Long smsg → readTokens bytes (turns + 1) offset tokenSet =
      readTokens bytes turns (offset + smsg.size)
        (insertToken (tokenAt (offset, smsg)) tokenSet)) ∧
    (¬ Long smsg → readTokens bytes (turns + 1) offset tokenSet =
      readTokens bytes turns (offset + smsgHdrLen) tokenSet) := by
  have header : slice bytes offset smsgHdrLen = some smsg.header := sits.slice_header
  have nPayload : uint32Of (smsg.header.drop 100) = smsg.nPayload := rfl
  simp only [readTokens, header, nPayload]
  constructor
  · intro long
    have sample : slice bytes (offset + smsgHdrLen) 8 = some smsg.sample := by
      rw [sample_of_small long small]
      exact sits.body long
    rw [if_neg (UInt32.not_lt.mpr long), sample, Record.size, ← Nat.add_assoc]
    rfl
  · intro short
    exact if_pos (UInt32.not_le.mp short)

variable {turns : Nat} {token : SecMsgToken}

theorem readTokens_end {front : Bytes} {tokenSet : List SecMsgToken} :
    readTokens front turns front.length tokenSet = tokenSet := by
  cases turns with
  | zero => rfl
  | succ turns =>
    have ended : slice front front.length smsgHdrLen = none :=
      slice_outside (Nat.lt_add_of_pos_right (by decide))
    simp only [readTokens, ended]

theorem readTokens_log : ∀ (front back : Bytes) turns tokenSet,
    (∀ smsg ∈ messages, Long smsg ∧ smsg.nPayload ≤ smsgMaxMsgWorst) →
    readTokens (front ++ (logBytes messages ++ back)) (messages.length + turns) front.length
        tokenSet =
      readTokens (front ++ (logBytes messages ++ back)) turns
        (front.length + (logBytes messages).length)
        (tokensOf tokenSet (placed front.length messages)) := by
  induction messages with
  | nil =>
    intro front back turns tokenSet _
    rw [length_nil, Nat.zero_add, logBytes_nil, length_nil, Nat.add_zero]
    rfl
  | cons smsg messages ih =>
    intro front back turns tokenSet good
    rw [forall_mem_cons] at good
    have step := (readTokens_sits (sitsAt_middle front (logBytes messages ++ back) smsg)
      good.1.2 (messages.length + turns) tokenSet).1 good.1.1
    have rest := ih (front ++ smsg.bytes) back turns
      (insertToken (tokenAt (front.length, smsg)) tokenSet) good.2
    rw [length_append, Record.bytes_length, append_assoc] at rest
    rw [length_cons, Nat.succ_add, logBytes_cons, append_assoc, step, rest,
      length_append, Record.bytes_length, Nat.add_assoc]
    rfl

theorem offset_of_readTokens : ∀ ofs tokenSet,
    token ∈ readTokens bytes turns ofs tokenSet → token ∈ tokenSet ∨ ofs ≤ token.offset := by
  induction turns with
  | zero =>
    intro ofs tokenSet member
    exact Or.inl member
  | succ turns ih =>
    intro ofs tokenSet member
    simp only [readTokens] at member
    split at member
    · exact Or.inl member
    · split_ifs at member
      · exact (ih _ _ member).imp_right (Nat.le_of_add_right_le)
      · split at member
        · exact Or.inl member
        · rcases ih _ _ member with inserted | behind
          · rcases mem_of_insertToken inserted with new | old
            · exact Or.inr (by rw [new])
            · exact Or.inl old
          · exact Or.inr (Nat.le_of_add_right_le (Nat.le_of_add_right_le behind))

theorem offset_of_tokensOf : ∀ offset tokenSet, token ∈ tokensOf tokenSet (placed offset messages) →
      token ∈ tokenSet ∨ token.offset < offset + (logBytes messages).length := by
  induction messages with
  | nil =>
    intro offset tokenSet member
    exact Or.inl member
  | cons smsg messages ih =>
    intro offset tokenSet member
    have positive : 0 < smsg.size := Nat.add_pos_left (by decide) _
    rw [logBytes_cons, length_append, Record.bytes_length]
    rcases ih _ _ member with inserted | before
    · rcases mem_of_insertToken inserted with new | old
      · have place : token.offset = offset := congrArg SecMsgToken.offset new
        right
        omega
      · exact Or.inl old
    · right
      omega

end Reading

theorem length_le_logBytes (messages : List SecureMessage) :
    messages.length ≤ (logBytes messages).length := by
  induction messages with
  | nil => exact le_refl 0
  | cons smsg messages ih =>
    have positive : 0 < smsg.size := Nat.add_pos_left (by decide) _
    rw [logBytes_cons, length_append, Record.bytes_length, length_cons]
    omega

theorem readTokens_whole (good : ∀ smsg ∈ messages, Long smsg ∧ smsg.nPayload ≤ smsgMaxMsgWorst) :
    readTokens (logBytes messages) (logBytes messages).length 0 [] =
      tokensOf [] (placed 0 messages) := by
  obtain ⟨turns, enough⟩ := Nat.exists_eq_add_of_le (length_le_logBytes messages)
  have read := readTokens_log [] [] turns [] good
  rw [nil_append, append_nil, length_nil, Nat.zero_add, readTokens_end, ← enough] at read
  exact read

theorem readTokens_misses {before after : List SecureMessage}
    (good : ∀ other ∈ before, Long other ∧ other.nPayload ≤ smsgMaxMsgWorst) (short : ¬ Long smsg)
    (small : smsg.nPayload ≤ smsgMaxMsgWorst) {token : SecMsgToken}
    (member : token ∈ readTokens (logBytes (before ++ smsg :: after))
      (logBytes (before ++ smsg :: after)).length 0 []) :
    token.offset ≠ (logBytes before).length := by
  have many : before.length + 1 ≤ (logBytes (before ++ smsg :: after)).length := by
    have bound := length_le_logBytes (before ++ smsg :: after)
    rw [length_append, length_cons] at bound
    omega
  obtain ⟨turns, enough⟩ := Nat.exists_eq_add_of_le many
  have file : logBytes (before ++ smsg :: after) =
      logBytes before ++ (smsg.bytes ++ logBytes after) := by
    rw [logBytes_append, logBytes_cons]
  have leading := readTokens_log [] (smsg.bytes ++ logBytes after) (turns + 1) [] good
  have passed := (readTokens_sits (sitsAt_middle (logBytes before) (logBytes after) smsg) small
    turns (tokensOf [] (placed 0 before))).2 short
  rw [nil_append, length_nil, Nat.zero_add, passed] at leading
  rw [enough, Nat.add_assoc, Nat.add_comm 1, file, leading] at member
  rcases offset_of_readTokens _ _ member with old | behind
  · rcases offset_of_tokensOf _ _ old with empty | inside
    · exact nomatch empty
    · rw [Nat.zero_add] at inside
      exact inside.ne
  · have header : smsgHdrLen = 104 := rfl
    omega

/-! ## All the files -/

section Files

theorem buildBucket_other {file : Sigma fun _ : FileName => Bytes} (differ : file.1 ≠ .dat time) :
    (buildBucket env now store file).smsgBuckets.lookup time = store.smsgBuckets.lookup time := by
  obtain ⟨name, bytes⟩ := file
  cases name with
  | dat fileTime =>
    simp only [buildBucket]
    split_ifs
    · rfl
    · refine AList.lookup_insert_ne ?_
      intro same
      exact differ (by rw [same])
  | wl fileTime =>
    simp only [buildBucket]
    split_ifs <;> rfl

theorem foldl_buildBucket_other {files : List (Sigma fun _ : FileName => Bytes)} :
    ∀ store : MsgStore, (∀ file ∈ files, file.1 ≠ .dat time) →
      (files.foldl (buildBucket env now) store).smsgBuckets.lookup time =
        store.smsgBuckets.lookup time := by
  induction files with
  | nil =>
    intro store _
    rfl
  | cons file files ih =>
    intro store differ
    rw [forall_mem_cons] at differ
    rw [foldl_cons, ih _ differ.2, buildBucket_other differ.1]

variable {files : Files}

theorem rebuilt_missing (missing : files.lookup (.dat time) = none) :
    (secureMsgBuildBucketSet env now ⟨∅, files⟩).smsgBuckets.lookup time = none := by
  refine foldl_buildBucket_other _ fun file member same => ?_
  rw [AList.lookup_eq_none] at missing
  exact missing (AList.mem_keys.mpr (same ▸ List.mem_map_of_mem member))

theorem rebuilt_lookup {bytes : Bytes} (fresh : now - smsgRetention ≤ time)
    (found : files.lookup (.dat time) = some bytes) :
    (secureMsgBuildBucketSet env now ⟨∅, files⟩).smsgBuckets.lookup time = some (hashBucket env now
        { newBucket with setTokens := readTokens bytes bytes.length 0 [] }) := by
  have member : (⟨.dat time, bytes⟩ : Sigma fun _ : FileName => Bytes) ∈ files.entries :=
    of_mem_dlookup found
  obtain ⟨front, back, split⟩ := append_of_mem member
  have once : (List.map Sigma.fst (front ++ ⟨.dat time, bytes⟩ :: back)).Nodup := by
    rw [← split]
    exact files.nodupKeys
  rw [map_append, map_cons, nodup_append] at once
  obtain ⟨-, onceBack, apart⟩ := once
  have notFront : ∀ file ∈ front, file.1 ≠ .dat time := fun file inFront =>
    apart _ (List.mem_map_of_mem inFront) _ mem_cons_self
  have notBack : ∀ file ∈ back, file.1 ≠ .dat time := by
    intro file inBack same
    exact (nodup_cons.mp onceBack).1 (List.mem_map.mpr ⟨file, inBack, same⟩)
  have empty : subscriptBucket (front.foldl (buildBucket env now) ⟨∅, files⟩).smsgBuckets time =
      newBucket := by
    rw [subscriptBucket, foldl_buildBucket_other _ notFront]
    rfl
  rw [secureMsgBuildBucketSet, split, List.foldl_append, foldl_cons,
    foldl_buildBucket_other _ notBack]
  simp only [buildBucket, if_neg (Int.not_lt.mpr fresh), empty, AList.lookup_insert]
  rfl

end Files

/-! ## The rebuilt table -/

/-- Tokens and hash of a bucket, as the rebuild leaves them and as they are at run time. -/
def Rebuilt (env : MsgEnv) (now : Int) (store : MsgStore) (time : Int) : Prop :=
  ((secureMsgBuildBucketSet env now ⟨∅, store.files⟩).smsgBuckets.lookup time).map
      (fun bucket => (bucket.setTokens, bucket.hash)) =
    (store.smsgBuckets.lookup time).map
      fun bucket => (bucket.setTokens, tokensHash env bucket.setTokens)

theorem Holds.rebuilt_iff (held : Holds store time messages) (fresh : now - smsgRetention ≤ time)
    (some : messages ≠ []) : Rebuilt env now store time ↔
      readTokens (logBytes messages) (logBytes messages).length 0 [] =
        (subscriptBucket store.smsgBuckets time).setTokens := by
  obtain ⟨bucket, atRunTime⟩ := held.used some
  have filled : fileBytes store.files (.dat time) ≠ [] := by
    rw [held.file]
    intro empty
    have bound := length_le_logBytes messages
    rw [empty] at bound
    exact some (length_eq_zero_iff.mp (Nat.le_zero.mp bound))
  have file := lookup_of_fileBytes filled
  rw [held.file] at file
  rw [Rebuilt, rebuilt_lookup fresh file, atRunTime, subscriptBucket, atRunTime, Option.getD_some,
    Option.map_some, Option.map_some, Option.some.injEq, Prod.mk.injEq]
  constructor
  · intro same
    exact same.1
  · intro same
    refine ⟨same, ?_⟩
    rw [← same]
    rfl

/-- The index of an unexpired bucket is rebuilt exactly if no message in it has a payload of
less than eight bytes. -/
theorem rebuilt_iff_long {env : MsgEnv} {msgs : List SecureMessage} {store : MsgStore}
    (run : StoredRun env msgs store) {now time : Int} (fresh : now - smsgRetention ≤ time) :
    Rebuilt env now store time ↔ ∀ smsg ∈ msgs, smsg.bucket = time → 8 ≤ smsg.nPayload := by
  have held := run.holds time
  have members : (∀ smsg ∈ msgs, smsg.bucket = time → 8 ≤ smsg.nPayload) ↔
      ∀ smsg ∈ inBucket time msgs, Long smsg := by
    simp [inBucket, Long]
  rw [members]
  by_cases empty : inBucket time msgs = []
  · obtain ⟨noBucket, noFile⟩ := held.unused empty
    rw [Rebuilt, rebuilt_missing noFile, noBucket, empty]
    exact iff_of_true rfl nofun
  · rw [held.rebuilt_iff fresh empty]
    constructor
    · intro same
      by_contra someShort
      -- the first message that is short has a token at run time, and none in the rebuilt set
      obtain ⟨before, smsg, after, split, short, longBefore⟩ : ∃ before smsg after,
          inBucket time msgs = before ++ smsg :: after ∧ ¬ Long smsg ∧
            ∀ other ∈ before, Long other := exists_first_short someShort
      rw [split] at held same
      have token := held.present ((logBytes before).length, smsg) (by
        rw [placed_append, Nat.zero_add]
        exact mem_append_right _ mem_cons_self)
      rw [← same] at token
      refine readTokens_misses (fun other member => ⟨longBefore other member, ?_⟩) short ?_
        token rfl
      · exact held.small other (mem_append_left _ member)
      · exact held.small smsg (mem_append_right _ mem_cons_self)
    · intro long
      rw [held.tokens]
      exact readTokens_whole fun smsg member => ⟨long smsg member, held.small smsg member⟩

theorem StoredRun.next (run : StoredRun env msgs store) (valid : validateMessage env smsg = 0)
    (stored : (storeMessage env now store smsg true).1 = 0) :
    StoredRun env (msgs ++ [smsg]) (storeMessage env now store smsg true).2 := by
  have accepted : secureMsgValidate env ⟨smsg.header, 0⟩ ⟨smsg.body, 0⟩ smsg.nPayload = some 0 := by
    rw [behind_own.validate, valid]
  have written : secureMsgStore env now store ⟨smsg.header, 0⟩ ⟨smsg.body, 0⟩ smsg.nPayload
      true = some (0, (storeMessage env now store smsg true).2) := by
    rw [behind_own.store]
    exact congrArg some (Prod.ext stored rfl)
  exact .store run accepted written

/-- Two messages of one bucket, the second behind the first. -/
theorem rebuilt_good : ∃ store,
    StoredRun plainCrypto.toMsgEnv [goodMessage, signedMessage 7] store ∧
      (store.smsgBuckets.lookup 0).map (fun bucket => bucket.setTokens.map SecMsgToken.offset) =
        some [0, 120] ∧
      Rebuilt plainCrypto.toMsgEnv 0 store 0 := by
  have first : StoredRun plainCrypto.toMsgEnv [goodMessage]
      (storeMessage plainCrypto.toMsgEnv 0 emptyStore goodMessage true).2 :=
    StoredRun.start.next (by decide +kernel) (by decide +kernel)
  have second : StoredRun plainCrypto.toMsgEnv [goodMessage, signedMessage 7]
      (storeMessage plainCrypto.toMsgEnv 0 (storeMessage plainCrypto.toMsgEnv 0 emptyStore
        goodMessage true).2 (signedMessage 7) true).2 :=
    first.next (by decide +kernel) (by decide +kernel)
  refine ⟨_, second, by decide +kernel, (rebuilt_iff_long second (by decide)).mpr ?_⟩
  simp only [forall_mem_cons]
  exact ⟨fun _ => by decide, fun _ => by decide, nofun⟩

/-- A message with a payload of seven bytes. -/
def sevenBytes : SecureMessage := ⟨plainHeader 0 7, List.replicate 7 0, by decide, by decide⟩

/-- It is valid and is stored, but has no token after a restart. -/
theorem rebuilt_loses_short :
    StoredRun plainCrypto.toMsgEnv [sevenBytes]
        (storeMessage plainCrypto.toMsgEnv 0 emptyStore sevenBytes true).2 ∧
      ¬ Rebuilt plainCrypto.toMsgEnv 0
        (storeMessage plainCrypto.toMsgEnv 0 emptyStore sevenBytes true).2 0 := by
  refine ⟨StoredRun.start.next (by decide +kernel) (by decide +kernel), ?_⟩
  unfold Rebuilt
  decide +kernel

end SynergyMessage.Rebuild
