import SynergyFormal.Message.Receive
import SynergyFormal.Lib.Loop

/-!
# The commands of a peer

`SecureMsgReceiveData`.  Peers exchange inventories of their buckets (`smsgInv`), ask to see
what a bucket holds (`smsgShow`), answer with its tokens (`smsgHave`), ask for messages
(`smsgWant`) and send them (`smsgMsg`).  Each payload is one vector of bytes, and each
handler checks its length against the counts in it before it reads on.

Memory is available; the locks of the threads are left out.
-/

set_option autoImplicit false

namespace SynergyMessage.ReceiveData

open SynergyLib
open Option Wire Slices Loop SecureMsg Decrypt Scan Receive

def int64Bytes (value : Int) : Bytes := leBytes 8 (value % 2 ^ 64).toNat

def tokenBytes (token : SecMsgToken) : Bytes := int64Bytes token.timestamp ++ token.sample

abbrev Handled := Bool × Node × Peer

/-! ## smsgInv -/

structure InvTally where
  smsgBuckets : Buckets
  /-- The times in `vchDataOut`. -/
  shown : List Int
  nLocked : Nat
  pfrom : Peer

/-- One bucket header of the peer. -/
def invBucket (now : Int) (tally : InvTally) (time : Int) (ncontent hash : UInt32) : InvTally :=
  if time < now - smsgRetention then
    if time < now - smsgRetention - smsgTimeLeeway then
      { tally with pfrom := tally.pfrom.misbehaving 1 }
    else tally
  else if now + smsgTimeLeeway < time then { tally with pfrom := tally.pfrom.misbehaving 1 }
  else if ncontent < 1 then tally
  else
    let bucket := subscriptBucket tally.smsgBuckets time
    let made := { tally with smsgBuckets := tally.smsgBuckets.insert time bucket }
    if 0 < bucket.nLockCount then { made with nLocked := tally.nLocked + 1 }
    else if bucket.setTokens.length < ncontent.toNat ∨
        bucket.setTokens.length = ncontent.toNat ∧ bucket.hash ≠ hash then
      { made with shown := tally.shown ++ [time] }
    else made

def invLoop (now : Int) (vchData : Bytes) (tally : InvTally) (i : Nat) : Option InvTally := do
  let p : Pointer := ⟨vchData, 4 + 16 * i⟩
  let time := int64Of (← p.read 0 8)
  let ncontent := uint32Of (← p.read 8 4)
  let hash := uint32Of (← p.read 12 4)
  return invBucket now tally time ncontent hash

def smsgInv (receiver : Receiver) (node : Node) (pfrom : Peer) (vchData : Bytes) :
    Option Handled := do
  if vchData.length < 4 then return (false, node, pfrom.misbehaving 1)
  else if receiver.now < pfrom.ignoreUntil then return (false, node, pfrom)
  else
    let nInvBuckets := uint32Of (← slice vchData 0 4)
    if UInt32.ofInt (smsgRetention / smsgBucketLen + 1) < nInvBuckets then
      return (false, node, pfrom.misbehaving 1)
    else if vchData.length < (4 + nInvBuckets * 16).toNat then
      return (false, node, pfrom.misbehaving 1)
    else
      let tally ← (List.range nInvBuckets.toNat).foldlM (invLoop receiver.now vchData)
        ⟨node.store.smsgBuckets, [], 0, pfrom⟩
      let answered :=
        if tally.shown ≠ [] then
          tally.pfrom.pushMessage .smsgShow
            (leBytes 4 tally.shown.length ++ tally.shown.flatMap int64Bytes)
        else if tally.nLocked < 1 then
          tally.pfrom.pushMessage .smsgMatch (int64Bytes receiver.now)
        else tally.pfrom
      return (true, node.setBuckets tally.smsgBuckets, answered)

/-! ## smsgShow -/

def showLoop (node : Node) (vchData : Bytes) (pfrom : Peer) (i : Nat) : Option Peer := do
  let pIn : Pointer := ⟨vchData, 4 + 8 * i⟩
  let time := int64Of (← pIn.read 0 8)
  match node.store.smsgBuckets.lookup time with
  | none => return pfrom
  | some bucket =>
    return pfrom.pushMessage .smsgHave (int64Bytes time ++ bucket.setTokens.flatMap tokenBytes)

/-- `nBuckets * 8` is a product of 32 bits. -/
def smsgShow (node : Node) (pfrom : Peer) (vchData : Bytes) : Option Handled := do
  if vchData.length < 4 then return (false, node, pfrom)
  else
    let nBuckets := uint32Of (← slice vchData 0 4)
    if vchData.length < (4 + nBuckets * 8).toNat then return (false, node, pfrom)
    else
      let answered ← (List.range nBuckets.toNat).foldlM (showLoop node vchData) pfrom
      return (true, node, answered)

/-! ## smsgHave -/

/-- `int n = (vchData.size() - 8) / 16`. -/
def tokenCount (vchData : Bytes) : Nat :=
  (Int.bmod ((vchData.length - 8) / 16 : Nat) (2 ^ 32)).toNat

/-- The tokens of `vchDataOut`, as they were sent. -/
def haveLoop (vchData : Bytes) (tokenSet : List SecMsgToken) (wanted : Bytes) (i : Nat) :
    Option Bytes := do
  let p : Pointer := ⟨vchData, 8 + 16 * i⟩
  let timestamp := int64Of (← p.read 0 8)
  let sample ← p.read 8 8
  if tokenSet.any fun token => token.key == (timestamp, sample) then return wanted
  else return wanted ++ (← p.read 0 16)

def smsgHave (receiver : Receiver) (node : Node) (pfrom : Peer) (vchData : Bytes) :
    Option Handled := do
  if vchData.length < 8 then return (false, node, pfrom)
  else
    let first ← slice vchData 0 8
    let time := int64Of first
    if time < receiver.now - smsgRetention then return (false, node, pfrom)
    else if receiver.now + smsgTimeLeeway < time then return (false, node, pfrom.misbehaving 1)
    else
      let bucket := subscriptBucket node.store.smsgBuckets time
      let made := node.setBuckets (node.store.smsgBuckets.insert time bucket)
      if 0 < bucket.nLockCount then return (false, made, pfrom)
      else
        let wanted ← (List.range (tokenCount vchData)).foldlM (haveLoop vchData bucket.setTokens) []
        if wanted = [] then return (true, made, pfrom)
        else
          let locked := { bucket with nLockCount := 3, nLockPeerId := pfrom.nPeerId }
          return (true, node.setBuckets (node.store.smsgBuckets.insert time locked),
            pfrom.pushMessage .smsgWant (first ++ wanted))

/-! ## smsgWant -/

structure Bunch where
  nBunch : Nat
  messages : Bytes
  /-- The loop was left. -/
  full : Bool

def wantLoop (files : Files) (vchData : Bytes) (tokenSet : List SecMsgToken) (bunch : Bunch)
    (i : Nat) : Option Bunch := do
  if bunch.full then return bunch
  else
    let p : Pointer := ⟨vchData, 8 + 16 * i⟩
    let timestamp := int64Of (← p.read 0 8)
    let sample ← p.read 8 8
    match tokenSet.find? fun token => token.key == (timestamp, sample) with
    | none => return bunch
    | some token =>
      let added : Bunch :=
        match secureMsgRetrieve files token with
        | none => bunch
        | some vchOne => ⟨bunch.nBunch + 1, bunch.messages ++ vchOne, false⟩
      return { added with full := 500 ≤ added.nBunch || 96000 ≤ 12 + added.messages.length }

def smsgWant (node : Node) (pfrom : Peer) (vchData : Bytes) : Option Handled := do
  if vchData.length < 8 then return (false, node, pfrom)
  else
    let time := int64Of (← slice vchData 0 8)
    match node.store.smsgBuckets.lookup time with
    | none => return (false, node, pfrom)
    | some bucket =>
      let bunch ← (List.range (tokenCount vchData)).foldlM
        (wantLoop node.store.files vchData bucket.setTokens) ⟨0, [], false⟩
      if bunch.nBunch = 0 then return (true, node, pfrom)
      else return (true, node, pfrom.pushMessage .smsgMsg
        (leBytes 4 bunch.nBunch ++ int64Bytes time ++ bunch.messages))

/-! ## The other commands -/

def smsgMatch (receiver : Receiver) (node : Node) (pfrom : Peer) (vchData : Bytes) :
    Option Handled := do
  if vchData.length < 8 then return (false, node, pfrom.misbehaving 1)
  else
    let time := int64Of (← slice vchData 0 8)
    return (true, node, { pfrom with
      lastMatched := if receiver.now + smsgTimeLeeway < time then receiver.now else time })

def smsgIgnore (node : Node) (pfrom : Peer) (vchData : Bytes) : Option Handled := do
  if vchData.length < 8 then return (false, node, pfrom.misbehaving 1)
  else return (true, node, { pfrom with ignoreUntil := int64Of (← slice vchData 0 8) })

def secureMsgReceiveData (receiver : Receiver) (node : Node) (pfrom : Peer) (command : Command)
    (vchData : Bytes) : Option Handled :=
  match command with
  | .smsgInv => smsgInv receiver node pfrom vchData
  | .smsgShow => smsgShow node pfrom vchData
  | .smsgHave => smsgHave receiver node pfrom vchData
  | .smsgWant => smsgWant node pfrom vchData
  | .smsgMsg => (secureMsgReceive receiver node pfrom vchData).map fun received =>
    (true, received.2)
  | .smsgMatch => smsgMatch receiver node pfrom vchData
  | .smsgPing => some (true, node, pfrom.pushMessage .smsgPong [])
  | .smsgPong => some (true, node, { pfrom with fEnabled := true })
  | .smsgDisabled => some (true, node, { pfrom with fEnabled := false })
  | .smsgIgnore => smsgIgnore node pfrom vchData

/-! ## Reads inside the vector -/

theorem loop_isSome {S T : Type} {step : S → Nat → Option S} {count : Nat} {start : S}
    {rest : S → Option T} (pass : ∀ i < count, ∀ state, (step state i).isSome = true)
    (ends : ∀ last, (rest last).isSome = true) :
    (((List.range count).foldlM step start).bind rest).isSome = true := by
  have all : ∃ last, (List.range count).foldlM step start = some last ∧ True := by
    apply foldlM_done (fun _ _ => True) (List.range count) _ trivial
    intro done i rest state split _
    have member : i ∈ List.range count := by rw [split]; simp
    obtain ⟨next, moved⟩ := isSome_iff_exists.mp (pass i (List.mem_range.mp member) state)
    exact ⟨next, moved, trivial⟩
  obtain ⟨last, run, -⟩ := all
  rw [run, bind_some]
  exact ends last

theorem read_inside {vchData : Bytes} {offset skip count : Nat}
    (inside : offset + skip + count ≤ vchData.length) :
    Pointer.read ⟨vchData, offset⟩ skip count = some ((vchData.drop (offset + skip)).take count) :=
  slice_inside inside

theorem tokenCount_le (vchData : Bytes) : tokenCount vchData ≤ (vchData.length - 8) / 16 := by
  unfold tokenCount
  generalize (vchData.length - 8) / 16 = size
  have remainder : (size : Int) % ((2 ^ 32 : Nat) : Int) ≤ size := by
    exact_mod_cast Nat.mod_le size (2 ^ 32)
  simp only [Int.bmod]
  generalize 2 ^ 32 = modulus at remainder ⊢
  split_ifs <;> omega

section Passes
variable {vchData : Bytes} {i : Nat}

theorem invLoop_isSome {now : Int} (inside : 4 + 16 * i + 16 ≤ vchData.length) {tally : InvTally} :
    (invLoop now vchData tally i).isSome = true := by
  have time : Pointer.read ⟨vchData, 4 + 16 * i⟩ 0 8 = some _ := read_inside (by omega)
  have ncontent : Pointer.read ⟨vchData, 4 + 16 * i⟩ 8 4 = some _ := read_inside (by omega)
  have hash : Pointer.read ⟨vchData, 4 + 16 * i⟩ 12 4 = some _ := read_inside (by omega)
  simp only [invLoop, time, ncontent, hash, bind_eq_bind, bind_some, Option.pure_def, isSome_some]

theorem haveLoop_isSome (inside : 8 + 16 * i + 16 ≤ vchData.length) {tokenSet : List SecMsgToken}
    {wanted : Bytes} : (haveLoop vchData tokenSet wanted i).isSome = true := by
  have timestamp : Pointer.read ⟨vchData, 8 + 16 * i⟩ 0 8 = some _ := read_inside (by omega)
  have sample : Pointer.read ⟨vchData, 8 + 16 * i⟩ 8 8 = some _ := read_inside (by omega)
  have both : Pointer.read ⟨vchData, 8 + 16 * i⟩ 0 16 = some _ := read_inside (by omega)
  simp only [haveLoop, timestamp, sample, both, bind_eq_bind, bind_some]
  split_ifs <;> rfl

theorem wantLoop_isSome {files : Files} (inside : 8 + 16 * i + 16 ≤ vchData.length)
    {tokenSet : List SecMsgToken} {bunch : Bunch} :
    (wantLoop files vchData tokenSet bunch i).isSome = true := by
  have timestamp : Pointer.read ⟨vchData, 8 + 16 * i⟩ 0 8 = some _ := read_inside (by omega)
  have sample : Pointer.read ⟨vchData, 8 + 16 * i⟩ 8 8 = some _ := read_inside (by omega)
  simp only [wantLoop, timestamp, sample, bind_eq_bind, bind_some]
  split_ifs
  · rfl
  · split <;> rfl

theorem showLoop_isSome_iff {node : Node} {pfrom : Peer} :
    (showLoop node vchData pfrom i).isSome = true ↔ 4 + 8 * i + 8 ≤ vchData.length := by
  by_cases inside : 4 + 8 * i + 8 ≤ vchData.length
  · have time : Pointer.read ⟨vchData, 4 + 8 * i⟩ 0 8 = some _ := read_inside inside
    apply iff_of_true _ inside
    simp only [showLoop, time, bind_eq_bind, bind_some]
    split <;> rfl
  · have time : Pointer.read ⟨vchData, 4 + 8 * i⟩ 0 8 = none :=
      slice_outside (Nat.not_le.mp inside)
    apply iff_of_false _ inside
    simp only [showLoop, time, bind_eq_bind, bind_none]
    exact Bool.false_ne_true

end Passes

section Handlers
variable (receiver : Receiver) (node : Node) (pfrom : Peer) (vchData : Bytes)

theorem inv_inside {nInvBuckets : UInt32} {size : Nat}
    (few : ¬ UInt32.ofInt (smsgRetention / smsgBucketLen + 1) < nInvBuckets)
    (enough : ¬ size < (4 + nInvBuckets * 16).toNat) : 4 + 16 * nInvBuckets.toNat ≤ size := by
  have bound : nInvBuckets.toNat ≤ (UInt32.ofInt (smsgRetention / smsgBucketLen + 1)).toNat :=
    UInt32.not_lt.mp few
  have most : (UInt32.ofInt (smsgRetention / smsgBucketLen + 1)).toNat = 289 := by decide
  have product : (4 + nInvBuckets * 16).toNat = (4 + nInvBuckets.toNat * 16 % 2 ^ 32) % 2 ^ 32 := by
    rw [UInt32.toNat_add, UInt32.toNat_mul]
    rfl
  omega

theorem smsgInv_isSome : (smsgInv receiver node pfrom vchData).isSome = true := by
  by_cases short : vchData.length < 4
  · simp only [smsgInv, if_pos short, Option.pure_def, isSome_some]
  · have count : slice vchData 0 4 = some _ := slice_inside (by omega)
    simp only [smsgInv, if_neg short, count, bind_eq_bind, bind_some]
    split_ifs with ignored many enough
    · rfl
    · rfl
    · rfl
    · have inside := inv_inside many enough
      exact loop_isSome (fun i small tally => invLoop_isSome (by omega)) fun _ => rfl

variable {vchData} in
/-- Behind the length check the bucket time can be read. -/
theorem guarded_isSome {early : Handled} {later : Bytes → Option Handled}
    (returns : 8 ≤ vchData.length → ∀ first, (later first).isSome = true) :
    (if vchData.length < 8 then pure early else slice vchData 0 8 >>= later).isSome = true := by
  split_ifs with short
  · rfl
  · rw [slice_inside (by omega)]
    exact returns (Nat.not_lt.mp short) _

theorem smsgHave_isSome : (smsgHave receiver node pfrom vchData).isSome = true := by
  refine guarded_isSome fun long first => ?_
  dsimp only
  split_ifs
  · rfl
  · rfl
  · rfl
  · have tokens := tokenCount_le vchData
    refine loop_isSome (fun i small wanted => haveLoop_isSome (by omega)) fun wanted => ?_
    split_ifs <;> rfl

theorem smsgWant_isSome : (smsgWant node pfrom vchData).isSome = true := by
  refine guarded_isSome fun long first => ?_
  dsimp only
  split
  · rfl
  · have tokens := tokenCount_le vchData
    refine loop_isSome (fun i small bunch => wantLoop_isSome (by omega)) fun bunch => ?_
    split_ifs <;> rfl

theorem smsgMatch_isSome : (smsgMatch receiver node pfrom vchData).isSome = true :=
  guarded_isSome fun _ _ => rfl

theorem smsgIgnore_isSome : (smsgIgnore node pfrom vchData).isSome = true :=
  guarded_isSome fun _ _ => rfl

/-- The length check of `smsgShow` is right for this many buckets. -/
def ShowFits (vchData : Bytes) : Prop :=
  4 ≤ vchData.length → (4 + leadingCount vchData * 8).toNat ≤ vchData.length →
    4 + 8 * (leadingCount vchData).toNat ≤ vchData.length

theorem smsgShow_isSome_iff : (smsgShow node pfrom vchData).isSome = true ↔ ShowFits vchData := by
  unfold ShowFits
  by_cases short : vchData.length < 4
  · simp only [smsgShow, if_pos short, Option.pure_def, isSome_some, true_iff]
    omega
  · have count : slice vchData 0 4 = some _ := slice_inside (by omega)
    have number : uint32Of ((vchData.drop 0).take 4) = leadingCount vchData := rfl
    simp only [smsgShow, if_neg short, count, number, bind_eq_bind, bind_some]
    split_ifs with few
    · exact iff_of_true rfl (fun _ enough => absurd few (Nat.not_lt.mpr enough))
    · simp only [Nat.not_lt.mp short, Nat.not_lt.mp few, forall_const]
      constructor
      · intro done
        obtain ⟨handled, ran⟩ := isSome_iff_exists.mp done
        obtain ⟨answered, run, -⟩ := bind_eq_some_iff.mp ran
        obtain ⟨-, passed⟩ := foldlM_rule (fun _ => True) (fun i => 4 + 8 * i + 8 ≤ vchData.length)
          (fun state i next _ moved => ⟨trivial, showLoop_isSome_iff.mp (isSome_of_eq_some moved)⟩)
          _ trivial run
        -- the last bucket lies inside, if there is one
        rcases Nat.eq_zero_or_pos (leadingCount vchData).toNat with none | positive
        · omega
        · have last := passed ((leadingCount vchData).toNat - 1) (List.mem_range.mpr (by omega))
          omega
      · intro inside
        exact loop_isSome (fun i small state => showLoop_isSome_iff.mpr (by omega)) fun _ => rfl

end Handlers

/-- All reads of a command lie inside the vector it came with exactly if `smsgShow` does not
name more buckets than it holds and every message `smsgMsg` comes to fits. -/
theorem secureMsgReceiveData_inside_iff (receiver : Receiver) (node : Node) (pfrom : Peer)
    (command : Command) (vchData : Bytes) :
    (secureMsgReceiveData receiver node pfrom command vchData).isSome = true ↔
      (command = .smsgShow → ShowFits vchData) ∧
      (command = .smsgMsg → Admitted receiver vchData →
        AllFit receiver vchData 12 node (leadingCount vchData).toNat) := by
  unfold secureMsgReceiveData
  cases command with
  | smsgInv => simp [smsgInv_isSome]
  | smsgShow => simp [smsgShow_isSome_iff]
  | smsgHave => simp [smsgHave_isSome]
  | smsgWant => simp [smsgWant_isSome]
  | smsgMsg => simp [secureMsgReceive_isSome_iff]
  | smsgMatch => simp [smsgMatch_isSome]
  | smsgPing => simp
  | smsgPong => simp
  | smsgDisabled => simp
  | smsgIgnore => simp [smsgIgnore_isSome]

def plainReceiver : Receiver := ⟨plainCrypto, 0, false, [⟨"own", true, true⟩]⟩

def emptyNode : Node := ⟨emptyStore, ∅⟩

def newPeer : Peer := ⟨1, 0, 0, true, 0, []⟩

/-- Eight times 0x20000000 buckets are no bytes in 32 bits; and a message whose header
promises sixteen bytes of payload ends behind the header. -/
theorem secureMsgReceiveData_reads_outside :
    (secureMsgReceiveData plainReceiver emptyNode newPeer .smsgShow [0, 0, 0, 32]).isSome = false ∧
      (secureMsgReceiveData plainReceiver emptyNode newPeer .smsgMsg
        ([1, 0, 0, 0] ++ List.replicate 8 0 ++ plainHeader 0 16)).isSome = false := by
  constructor
  · rw [Bool.eq_false_iff]
    intro inside
    have fits := (smsgShow_isSome_iff _ _ _).mp inside
    exact absurd (fits (by decide) (by decide)) (by decide)
  · decide +kernel

end SynergyMessage.ReceiveData
