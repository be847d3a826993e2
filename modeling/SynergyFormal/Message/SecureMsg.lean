import SynergyFormal.Lib.RecordLog
import Mathlib.Data.List.AList

/-!
# Secure messages and their store

`SecureMessage`, `SecMsgToken`, `SecMsgBucket`, `SecureMsgValidate`, `SecureMsgStore`,
`SecureMsgStoreUnscanned` and `SecureMsgRetrieve` (`smessage.h`, `smessage.cpp`).

Messages are kept in one file for each ten minutes, header and payload one after the other;
`smsgBuckets` holds for each file the set of tokens by which its messages are found.
Functions that take pointers read through them, and `none` is a read outside the vector a
pointer points into.  Files are byte sequences, opening and writing them does not fail,
and the clock stands still during a call.  Log output and the null checks of the pointers
are left out.
-/

set_option autoImplicit false

namespace SynergyMessage.SecureMsg

open SynergyLib
open Wire Slices RecordLog

/-! ## Messages -/

def smsgHdrLen : Nat := 104
def smsgPlHdrLen : Nat := 1 + 20 + 65 + 4
def smsgBucketLen : Int := 60 * 10
def smsgRetention : Int := 60 * 60 * 48
def smsgTimeLeeway : Int := 60
def smsgMaxMsgBytes : Nat := 4096

/-- `LZ4_COMPRESSBOUND(SMSG_MAX_MSG_BYTES+SMSG_PL_HDR_LEN)`. -/
def smsgMaxMsgWorst : UInt32 :=
  let isize := smsgMaxMsgBytes + smsgPlHdrLen
  UInt32.ofNat (isize + isize / 255 + 16)

theorem toNat_le_worst {nPayload : UInt32} (small : nPayload ≤ smsgMaxMsgWorst) :
    nPayload.toNat ≤ 4218 := by
  have worst : smsgMaxMsgWorst.toNat = 4218 := by decide
  have bound : nPayload.toNat ≤ smsgMaxMsgWorst.toNat := small
  rwa [worst] at bound

def uint32Of (bytes : Bytes) : UInt32 := UInt32.ofNat (readBytes bytes)

def int64Of (bytes : Bytes) : Int := Int.bmod (readBytes bytes) (2 ^ 64)

/-! The fields of the packed `SecureMessage` behind a pointer to its header:
`hash[4]`, `version[2]`, `flags`, `timestamp`, `iv[16]`, `cpkR[33]`, `mac[32]`, `nonse[4]`,
`nPayload`. -/

def hashField (pHeader : Pointer) : Option Bytes := pHeader.read 0 4
def versionField (pHeader : Pointer) : Option Bytes := pHeader.read 4 1
def timestampField (pHeader : Pointer) : Option Bytes := pHeader.read 7 8
def ivField (pHeader : Pointer) : Option Bytes := pHeader.read 15 16
def cpkRField (pHeader : Pointer) : Option Bytes := pHeader.read 31 33
def macField (pHeader : Pointer) : Option Bytes := pHeader.read 64 32
def nonseField (pHeader : Pointer) : Option Bytes := pHeader.read 96 4
def nPayloadField (pHeader : Pointer) : Option Bytes := pHeader.read 100 4

/-- A message on the wire and on disk. -/
def messageFormat : Format where
  headerLen := smsgHdrLen
  bodyLen header := (uint32Of (header.drop 100)).toNat

abbrev SecureMessage := Record messageFormat

def SecureMessage.timestamp (smsg : SecureMessage) : Int :=
  int64Of ((smsg.header.drop 7).take 8)

def SecureMessage.nPayload (smsg : SecureMessage) : UInt32 := uint32Of (smsg.header.drop 100)

/-! ## What the functions call but do not define -/

structure MsgEnv where
  /-- HMAC-SHA256 of a text under a key; `none` if the library fails. -/
  hmac : Bytes → Bytes → Option Bytes
  /-- XXH32 with seed 1. -/
  xxh32 : Bytes → UInt32

/-! ## Tokens and buckets -/

structure SecMsgToken where
  timestamp : Int
  sample : Bytes
  offset : Nat
  deriving DecidableEq

/-- `SecMsgToken(ts, p, np, o)`; `np` is an `int`. -/
def sampleOf (pPayload : Pointer) (nPayload : UInt32) : Option Bytes :=
  if nPayload.toInt32 < 8 then some (List.replicate 8 0) else pPayload.read 0 8

def SecMsgToken.key (token : SecMsgToken) : Int × Bytes := (token.timestamp, token.sample)

/-- `operator <`; `memcmp` compares bytes as unsigned. -/
def SecMsgToken.before (x y : SecMsgToken) : Prop :=
  if x.timestamp = y.timestamp then x.sample < y.sample else x.timestamp < y.timestamp

instance (x y : SecMsgToken) : Decidable (x.before y) := inferInstanceAs (Decidable (ite _ _ _))

/-- `std::set::insert` on the elements in order. -/
def insertToken (token : SecMsgToken) : List SecMsgToken → List SecMsgToken
  | [] => [token]
  | first :: rest =>
    if token.before first then token :: first :: rest
    else if first.before token then first :: insertToken token rest
    else first :: rest

structure SecMsgBucket where
  timeChanged : Int
  hash : UInt32
  nLockCount : UInt32
  nLockPeerId : UInt32
  setTokens : List SecMsgToken

def newBucket : SecMsgBucket := ⟨0, 0, 0, 0, []⟩

def tokensHash (env : MsgEnv) (setTokens : List SecMsgToken) : UInt32 :=
  env.xxh32 (setTokens.flatMap SecMsgToken.sample)

def hashBucket (env : MsgEnv) (now : Int) (bucket : SecMsgBucket) : SecMsgBucket :=
  { bucket with timeChanged := now, hash := tokensHash env bucket.setTokens }

/-! ## The store -/

/-- The names `<time>_01.dat` and `<time>_01_wl.dat`. -/
inductive FileName where
  | dat (time : Int)
  | wl (time : Int)
  deriving DecidableEq

abbrev Buckets := AList (fun _ : Int => SecMsgBucket)

/-- The directory `smsgStore`, in the order an iterator visits it. -/
abbrev Files := AList (fun _ : FileName => Bytes)

structure MsgStore where
  smsgBuckets : Buckets
  files : Files

def emptyStore : MsgStore := ⟨∅, ∅⟩

/-- `smsgBuckets[time]`, which makes a bucket that is missing. -/
def subscriptBucket (buckets : Buckets) (time : Int) : SecMsgBucket :=
  (buckets.lookup time).getD newBucket

def fileBytes (files : Files) (name : FileName) : Bytes := (files.lookup name).getD []

/-- `fopen` with mode `ab` and `fwrite`. -/
def appendFile (files : Files) (name : FileName) (bytes : Bytes) : Files :=
  files.insert name (fileBytes files name ++ bytes)

theorem subscriptBucket_insert {smsgBuckets : Buckets} {time other : Int} {bucket : SecMsgBucket} :
    subscriptBucket (smsgBuckets.insert time bucket) other =
      if other = time then bucket else subscriptBucket smsgBuckets other := by
  unfold subscriptBucket
  split_ifs with same
  · subst same
    rw [AList.lookup_insert]
    rfl
  · rw [AList.lookup_insert_ne same]

theorem fileBytes_appendFile {files : Files} {name other : FileName} {bytes : Bytes} :
    fileBytes (appendFile files name bytes) other =
      if other = name then fileBytes files name ++ bytes else fileBytes files other := by
  unfold appendFile
  split_ifs with same
  · subst same
    rw [fileBytes, AList.lookup_insert]
    rfl
  · rw [fileBytes, AList.lookup_insert_ne same, fileBytes]

def bucketOf (timestamp : Int) : Int := timestamp - Int.tmod timestamp smsgBucketLen

/-- The two time limits of a message. -/
def inWindow (now timestamp : Int) : Bool :=
  decide (timestamp ≤ now + smsgTimeLeeway) && decide (now - smsgRetention ≤ timestamp)

/-- The result is 0 for success and 1 for an error. -/
def secureMsgStore (env : MsgEnv) (now : Int) (store : MsgStore) (pHeader pPayload : Pointer)
    (nPayload : UInt32) (fUpdateBucket : Bool) : Option (Nat × MsgStore) := do
  let timestamp := int64Of (← timestampField pHeader)
  if !inWindow now timestamp then return (1, store)
  else
    let bucket := bucketOf timestamp
    let sample ← sampleOf pPayload nPayload
    let entry := subscriptBucket store.smsgBuckets bucket
    if entry.setTokens.any fun token => token.key == (timestamp, sample) then
      return (1, { store with smsgBuckets := store.smsgBuckets.insert bucket entry })
    else
      let header ← pHeader.read 0 smsgHdrLen
      let payload ← pPayload.read 0 nPayload.toNat
      let ofs := (fileBytes store.files (.dat bucket)).length
      let added := { entry with setTokens := insertToken ⟨timestamp, sample, ofs⟩ entry.setTokens }
      return (0, {
        smsgBuckets := store.smsgBuckets.insert bucket
          (if fUpdateBucket then hashBucket env now added else added)
        files := appendFile store.files (.dat bucket) (header ++ payload) })

/-- A copy of a message that arrives while the wallet is locked. -/
def secureMsgStoreUnscanned (now : Int) (files : Files) (pHeader pPayload : Pointer)
    (nPayload : UInt32) : Option (Nat × Files) := do
  let timestamp := int64Of (← timestampField pHeader)
  if !inWindow now timestamp then return (1, files)
  else
    let header ← pHeader.read 0 smsgHdrLen
    let payload ← pPayload.read 0 nPayload.toNat
    return (0, appendFile files (.wl (bucketOf timestamp)) (header ++ payload))

/-- The message, or the error 1. -/
def secureMsgRetrieve (files : Files) (token : SecMsgToken) : Option Bytes := do
  let file ← files.lookup (.dat (bucketOf token.timestamp))
  let header ← slice file token.offset smsgHdrLen
  let payload ← slice file (token.offset + smsgHdrLen) (messageFormat.bodyLen header)
  -- a sum that wraps makes the vector shorter than what is read into it
  if smsgHdrLen + messageFormat.bodyLen header < 2 ^ 32 then some (header ++ payload) else none

/-! ## Validation -/

/-- What becomes of `rv`.  The checksum is compared last, and only if the library did not
fail. -/
def checkHash (hash : Bytes) : Option Bytes → Nat
  | none => 1
  | some sha256Hash =>
    if sha256Hash.length ≠ 32 then 1
    else if hash ≠ sha256Hash.take 4 then 3
    else if sha256Hash.getD 31 0 = 0 ∧ sha256Hash.getD 30 0 = 0 ∧
        -- the mask is a logical or, and so 1
        ~~~(sha256Hash.getD 29 0) &&& 1 ≠ 0 then 0
    else 2

/-- 0 success, 1 error, 2 invalid hash, 3 checksum mismatch, 4 invalid version, 5 payload
is too large. -/
def secureMsgValidate (env : MsgEnv) (pHeader pPayload : Pointer) (nPayload : UInt32) :
    Option Nat := do
  if (← versionField pHeader) ≠ [1] then return 4
  else if smsgMaxMsgWorst < nPayload then return 5
  else
    let nonse ← nonseField pHeader
    let civ := (List.replicate 8 nonse).flatten
    let text ← pHeader.read 4 (smsgHdrLen - 4)
    let payload ← pPayload.read 0 nPayload.toNat
    return checkHash (← hashField pHeader) (env.hmac civ (text ++ payload ++ payload))

/-! ## A message behind two pointers -/

def SecureMessage.sample (smsg : SecureMessage) : Bytes :=
  if smsg.nPayload.toInt32 < 8 then List.replicate 8 0 else smsg.body.take 8

/-- The token key of a message, the one its token is found by. -/
def SecureMessage.key (smsg : SecureMessage) : Int × Bytes := (smsg.timestamp, smsg.sample)

def SecureMessage.bucket (smsg : SecureMessage) : Int := bucketOf smsg.timestamp

/-- The pointers lead to the header and to the payload. -/
structure Behind (pHeader pPayload : Pointer) (smsg : SecureMessage) : Prop where
  header : ∀ skip count, skip + count ≤ smsgHdrLen →
    pHeader.read skip count = slice smsg.header skip count
  payload : ∀ count, count ≤ smsg.nPayload.toNat →
    pPayload.read 0 count = some (smsg.body.take count)

theorem behind_sitsAt {bytes : Bytes} {offset : Nat} {smsg : SecureMessage}
    (sits : SitsAt bytes offset smsg) :
    Behind ⟨bytes, offset⟩ ⟨bytes, offset + smsgHdrLen⟩ smsg :=
  ⟨fun _ _ inner => sits.header inner, fun _ inner => sits.body inner⟩

theorem behind_own {smsg : SecureMessage} : Behind ⟨smsg.header, 0⟩ ⟨smsg.body, 0⟩ smsg := by
  refine ⟨fun skip count _ => ?_, fun count inner => ?_⟩
  · rw [Pointer.read, Nat.zero_add]
  · exact slice_inside (by rw [smsg.bodyExact, Nat.zero_add]; exact inner)

theorem toInt32_lt_eight_iff {nPayload : UInt32} :
    nPayload.toInt32 < 8 ↔ nPayload.toNat < 8 ∨ 2 ^ 31 ≤ nPayload.toNat := by
  have word : nPayload.toInt32.toInt = nPayload.toBitVec.toInt := rfl
  have value : nPayload.toBitVec.toNat = nPayload.toNat := rfl
  have eight : (8 : Int32).toInt = 8 := by decide
  have bound := nPayload.toNat_lt
  rw [Int32.lt_iff_toInt_lt, word, BitVec.toInt_eq_toNat_cond, value, eight]
  split_ifs <;> omega

section Values
variable {pHeader pPayload : Pointer} {smsg : SecureMessage}

section Behind
variable (behind : Behind pHeader pPayload smsg)
include behind

theorem Behind.field {skip count : Nat} (inner : skip + count ≤ smsgHdrLen) :
    pHeader.read skip count = some ((smsg.header.drop skip).take count) := by
  rw [behind.header skip count inner, slice_inside]
  rw [smsg.headerExact]
  exact inner

theorem Behind.wholeHeader : pHeader.read 0 smsgHdrLen = some smsg.header := by
  rw [behind.field (le_refl _), List.drop_zero, List.take_of_length_le]
  exact smsg.headerExact.le

theorem Behind.wholePayload : pPayload.read 0 smsg.nPayload.toNat = some smsg.body := by
  rw [behind.payload _ (le_refl _), List.take_of_length_le]
  exact smsg.bodyExact.le

theorem Behind.sampleOf : SecureMsg.sampleOf pPayload smsg.nPayload = some smsg.sample := by
  unfold SecureMsg.sampleOf SecureMessage.sample
  split_ifs with short
  · rfl
  · refine behind.payload 8 ?_
    by_contra few
    exact short (toInt32_lt_eight_iff.mpr (Or.inl (Nat.not_le.mp few)))

end Behind

/-- `secureMsgStore` of a whole message. -/
def storeMessage (env : MsgEnv) (now : Int) (store : MsgStore) (smsg : SecureMessage)
    (fUpdateBucket : Bool) : Nat × MsgStore :=
  let entry := subscriptBucket store.smsgBuckets smsg.bucket
  let ofs := (fileBytes store.files (.dat smsg.bucket)).length
  let added := { entry with
    setTokens := insertToken ⟨smsg.timestamp, smsg.sample, ofs⟩ entry.setTokens }
  if !inWindow now smsg.timestamp then (1, store)
  else if entry.setTokens.any fun token => token.key == smsg.key then
    (1, { store with smsgBuckets := store.smsgBuckets.insert smsg.bucket entry })
  else (0, {
    smsgBuckets := store.smsgBuckets.insert smsg.bucket
      (if fUpdateBucket then hashBucket env now added else added)
    files := appendFile store.files (.dat smsg.bucket) smsg.bytes })

/-- `secureMsgValidate` of a whole message. -/
def validateMessage (env : MsgEnv) (smsg : SecureMessage) : Nat :=
  if (smsg.header.drop 4).take 1 ≠ [1] then 4
  else if smsgMaxMsgWorst < smsg.nPayload then 5
  else checkHash ((smsg.header.drop 0).take 4)
    (env.hmac (List.replicate 8 ((smsg.header.drop 96).take 4)).flatten
      ((smsg.header.drop 4).take (smsgHdrLen - 4) ++ smsg.body ++ smsg.body))

theorem Behind.store (behind : Behind pHeader pPayload smsg) (env : MsgEnv) (now : Int)
    (store : MsgStore) (fUpdateBucket : Bool) :
    secureMsgStore env now store pHeader pPayload smsg.nPayload fUpdateBucket =
      some (storeMessage env now store smsg fUpdateBucket) := by
  have time : timestampField pHeader = some ((smsg.header.drop 7).take 8) :=
    behind.field (by decide)
  have timestamp : int64Of ((smsg.header.drop 7).take 8) = smsg.timestamp := rfl
  have bucket : bucketOf smsg.timestamp = smsg.bucket := rfl
  have key : (smsg.timestamp, smsg.sample) = smsg.key := rfl
  simp only [secureMsgStore, storeMessage, time, timestamp, bucket, key, behind.sampleOf,
    behind.wholeHeader, behind.wholePayload, Option.bind_eq_bind, Option.bind_some,
    Option.pure_def]
  split_ifs <;> rfl

theorem Behind.validate (behind : Behind pHeader pPayload smsg) (env : MsgEnv) :
    secureMsgValidate env pHeader pPayload smsg.nPayload = some (validateMessage env smsg) := by
  have version : versionField pHeader = some ((smsg.header.drop 4).take 1) :=
    behind.field (by decide)
  have nonse : nonseField pHeader = some ((smsg.header.drop 96).take 4) :=
    behind.field (by decide)
  have hash : hashField pHeader = some ((smsg.header.drop 0).take 4) := behind.field (by decide)
  have text : pHeader.read 4 (smsgHdrLen - 4) =
      some ((smsg.header.drop 4).take (smsgHdrLen - 4)) := behind.field (by decide)
  simp only [secureMsgValidate, version, nonse, hash, text, behind.wholePayload,
    Option.bind_eq_bind, Option.bind_some, Option.pure_def]
  unfold validateMessage
  split_ifs <;> rfl

end Values

/-! ## The messages of a store -/

/-- The same tokens and the same files of messages. -/
structure SameMessages (store other : MsgStore) : Prop where
  tokens : ∀ time, (subscriptBucket store.smsgBuckets time).setTokens =
    (subscriptBucket other.smsgBuckets time).setTokens
  files : ∀ time, fileBytes store.files (.dat time) = fileBytes other.files (.dat time)

theorem SameMessages.refl (store : MsgStore) : SameMessages store store :=
  ⟨fun _ => rfl, fun _ => rfl⟩

theorem SameMessages.symm {store other : MsgStore} (same : SameMessages store other) :
    SameMessages other store :=
  ⟨fun time => (same.tokens time).symm, fun time => (same.files time).symm⟩

theorem SameMessages.trans {first second third : MsgStore} (same : SameMessages first second)
    (next : SameMessages second third) : SameMessages first third :=
  ⟨fun time => (same.tokens time).trans (next.tokens time),
    fun time => (same.files time).trans (next.files time)⟩

/-! ## What storing a message does -/

theorem unscanned_keeps_messages {now : Int} {files written : Files} {code : Nat}
    {pHeader pPayload : Pointer} {nPayload : UInt32}
    (stored : secureMsgStoreUnscanned now files pHeader pPayload nPayload = some (code, written))
    {time : Int} : fileBytes written (.dat time) = fileBytes files (.dat time) := by
  obtain ⟨timestamp, -, rest⟩ := Option.bind_eq_some_iff.mp stored
  cases late : !inWindow now (int64Of timestamp) with
  | true =>
    simp only [late, if_true, Option.pure_def, Option.some.injEq, Prod.mk.injEq] at rest
    rw [rest.2]
  | false =>
    simp only [late, Bool.false_eq_true, if_false] at rest
    obtain ⟨header, -, rest⟩ := Option.bind_eq_some_iff.mp rest
    obtain ⟨payload, -, rest⟩ := Option.bind_eq_some_iff.mp rest
    cases rest
    rw [fileBytes_appendFile, if_neg (by simp)]

section Storing
variable (env : MsgEnv) (now : Int) (store : MsgStore) (smsg : SecureMessage)
variable (fUpdateBucket : Bool)

/-- No token of the bucket has the key of the message. -/
def Fresh (store : MsgStore) (smsg : SecureMessage) : Prop :=
  ∀ token ∈ (subscriptBucket store.smsgBuckets smsg.bucket).setTokens, token.key ≠ smsg.key

theorem any_key_iff : ((subscriptBucket store.smsgBuckets smsg.bucket).setTokens.any
    fun token => token.key == smsg.key) = false ↔ Fresh store smsg := by
  simp [Fresh]

/-- The token a message is found by. -/
def tokenFor (store : MsgStore) (smsg : SecureMessage) : SecMsgToken :=
  ⟨smsg.timestamp, smsg.sample, (fileBytes store.files (.dat smsg.bucket)).length⟩

@[simp] theorem tokenFor_timestamp {store : MsgStore} {smsg : SecureMessage} :
    (tokenFor store smsg).timestamp = smsg.timestamp := by
  simp only [tokenFor]

@[simp] theorem tokenFor_key {store : MsgStore} {smsg : SecureMessage} :
    (tokenFor store smsg).key = smsg.key := by
  simp only [SecMsgToken.key, SecureMessage.key, tokenFor]

@[simp] theorem tokenFor_offset {store : MsgStore} {smsg : SecureMessage} :
    (tokenFor store smsg).offset = (fileBytes store.files (.dat smsg.bucket)).length := by
  simp only [tokenFor]

def addToken (store : MsgStore) (smsg : SecureMessage) : SecMsgBucket :=
  let entry := subscriptBucket store.smsgBuckets smsg.bucket
  { entry with setTokens := insertToken (tokenFor store smsg) entry.setTokens }

theorem storeMessage_cases : (inWindow now smsg.timestamp = false ∧
      storeMessage env now store smsg fUpdateBucket = (1, store)) ∨
    (inWindow now smsg.timestamp = true ∧ ¬ Fresh store smsg ∧
      storeMessage env now store smsg fUpdateBucket = (1, { store with
        smsgBuckets := store.smsgBuckets.insert smsg.bucket
          (subscriptBucket store.smsgBuckets smsg.bucket) })) ∨
    (inWindow now smsg.timestamp = true ∧ Fresh store smsg ∧
      storeMessage env now store smsg fUpdateBucket = (0, {
        smsgBuckets := store.smsgBuckets.insert smsg.bucket
          (if fUpdateBucket then hashBucket env now (addToken store smsg) else addToken store smsg)
        files := appendFile store.files (.dat smsg.bucket) smsg.bytes })) := by
  rw [← any_key_iff]
  unfold storeMessage
  cases inWindow now smsg.timestamp with
  | false => exact Or.inl ⟨rfl, rfl⟩
  | true =>
    cases known : (subscriptBucket store.smsgBuckets smsg.bucket).setTokens.any
        fun token => token.key == smsg.key with
    | true => exact Or.inr (Or.inl ⟨rfl, by decide, if_pos known⟩)
    | false => exact Or.inr (Or.inr ⟨rfl, rfl, if_neg (Bool.eq_false_iff.mp known)⟩)

theorem storeMessage_code_iff : (storeMessage env now store smsg fUpdateBucket).1 = 0 ↔
    inWindow now smsg.timestamp = true ∧ Fresh store smsg := by
  rcases storeMessage_cases env now store smsg fUpdateBucket with
    ⟨late, result⟩ | ⟨inside, known, result⟩ | ⟨inside, fresh, result⟩
  · simp [result, late]
  · simp [result, known]
  · simp [result, inside, fresh]

variable {env now store smsg fUpdateBucket}

theorem storeMessage_dropped (dropped : (storeMessage env now store smsg fUpdateBucket).1 ≠ 0) :
    SameMessages (storeMessage env now store smsg fUpdateBucket).2 store := by
  rcases storeMessage_cases env now store smsg fUpdateBucket with
    ⟨-, result⟩ | ⟨-, -, result⟩ | ⟨-, -, result⟩
  · rw [result]
    exact SameMessages.refl store
  · rw [result]
    refine ⟨fun time => ?_, fun time => rfl⟩
    rw [subscriptBucket_insert]
    split_ifs with same
    · rw [same]
    · rfl
  · exact absurd (congrArg Prod.fst result) dropped

section Shared
variable (stored : (storeMessage env now store smsg fUpdateBucket).1 = 0)
include stored

theorem storeMessage_stored : (storeMessage env now store smsg fUpdateBucket).2 = {
      smsgBuckets := store.smsgBuckets.insert smsg.bucket
        (if fUpdateBucket then hashBucket env now (addToken store smsg) else addToken store smsg)
      files := appendFile store.files (.dat smsg.bucket) smsg.bytes } := by
  rcases storeMessage_cases env now store smsg fUpdateBucket with
    ⟨-, result⟩ | ⟨-, -, result⟩ | ⟨-, -, result⟩
  · exact absurd (stored.symm.trans (congrArg Prod.fst result)) Nat.zero_ne_one
  · exact absurd (stored.symm.trans (congrArg Prod.fst result)) Nat.zero_ne_one
  · exact congrArg Prod.snd result

theorem storeMessage_tokens {time : Int} :
    (subscriptBucket (storeMessage env now store smsg fUpdateBucket).2.smsgBuckets time).setTokens =
      if time = smsg.bucket then
        insertToken (tokenFor store smsg) (subscriptBucket store.smsgBuckets time).setTokens
      else (subscriptBucket store.smsgBuckets time).setTokens := by
  rw [storeMessage_stored stored, subscriptBucket_insert]
  split_ifs with same
  · rw [same]
    rfl
  · rw [same]
    rfl
  · rfl

theorem storeMessage_files : (storeMessage env now store smsg fUpdateBucket).2.files =
      appendFile store.files (.dat smsg.bucket) smsg.bytes := by
  rw [storeMessage_stored stored]

end Shared

end Storing

theorem SameMessages.store {store other : MsgStore} (same : SameMessages store other)
    (env : MsgEnv) (now : Int) (smsg : SecureMessage) (fUpdateBucket : Bool) :
    ((storeMessage env now store smsg fUpdateBucket).1 = 0 ↔
        (storeMessage env now other smsg fUpdateBucket).1 = 0) ∧
      SameMessages (storeMessage env now store smsg fUpdateBucket).2
        (storeMessage env now other smsg fUpdateBucket).2 := by
  have codes : (storeMessage env now store smsg fUpdateBucket).1 = 0 ↔
      (storeMessage env now other smsg fUpdateBucket).1 = 0 := by
    rw [storeMessage_code_iff, storeMessage_code_iff, Fresh, Fresh, same.tokens]
  refine ⟨codes, ?_⟩
  by_cases stored : (storeMessage env now store smsg fUpdateBucket).1 = 0
  · refine ⟨fun time => ?_, fun time => ?_⟩
    · rw [storeMessage_tokens stored, storeMessage_tokens (codes.mp stored), same.tokens,
        tokenFor, tokenFor, same.files]
    · rw [storeMessage_files stored, storeMessage_files (codes.mp stored),
        fileBytes_appendFile, fileBytes_appendFile, same.files, same.files]
  · exact (storeMessage_dropped stored).trans
      (same.trans (storeMessage_dropped (fun other => stored (codes.mpr other))).symm)

end SynergyMessage.SecureMsg
