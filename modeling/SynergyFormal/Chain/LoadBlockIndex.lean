import SynergyFormal.Lib.Session
import SynergyFormal.Chain.IndexRecords
import SynergyFormal.Chain.ProcessBlock

/-!
# Loading the block index

`CTxDB::LoadBlockIndex` rebuilds `mapBlockIndex` from the block index records: one pass
makes an object per record and per hash a record mentions, a second one goes through them
by height and computes trust and modifier checksums from the parents.  The best chain is
the one the database names, and its last blocks are checked again.

`IndexNode` is the chain state with the fields of the entries that only a restart reads
back: stake modifier, flags, proof hash and `setStakeSeen`.  They are set before an entry
is written for the first time and never changed, so a record that is written again carries
what it carried before.

Pointers are the hashes of the objects they point to.  The database iterator may visit the
records in any order, and equal heights are sorted by the addresses of the objects.  The
checks are those of the default `-checklevel`.
-/

set_option autoImplicit false

namespace SynergyChain.LoadBlockIndex

open SynergyLib SynergyData SynergyLedger
open Function Wire Session SynergyLib.Tree Transaction Block TxDB Inputs Wallet ConnectBlock
  SynergyPool.MemPool BestChain StakeModifier Switch
open SynergyChain.BlockMap SynergyChain.ProcessBlock SynergyChain.IndexRecords

/-! ## Index entries -/

/-- The fields of a `CBlockIndex`; `stake` is `prevoutStake` and `nStakeTime`. -/
structure IndexEntry where
  pprev : Option Uint256
  pnext : Option Uint256
  nFile : UInt32
  nBlockPos : UInt32
  nChainTrust : Nat
  nHeight : Nat
  nMint : Int64
  nMoneySupply : Int64
  nFlags : UInt32
  nStakeModifier : UInt64
  nStakeModifierChecksum : UInt32
  stake : Stake
  hashProof : Uint256
  nVersion : Int32
  hashMerkleRoot : Uint256
  nTime : UInt32
  nBits : UInt32
  nNonce : UInt32
  deriving DecidableEq

/-- `CBlockIndex()`. -/
def nullEntry : IndexEntry :=
  ⟨none, none, 0, 0, 0, 0, 0, 0, 0, 0, 0, nullStake, 0, 0, 0, 0, 0, 0⟩

/-- `BLOCK_PROOF_OF_STAKE`, `BLOCK_STAKE_ENTROPY` and `BLOCK_STAKE_MODIFIER`. -/
def flagsOf (b : CBlock) (hash : Uint256) (generated : Bool) : UInt32 :=
  (if isProofOfStake b then 1 else 0) ||| (if hash.toNat % 2 = 1 then 2 else 0) |||
    (if generated then 4 else 0)

def hasStakeFlag (nFlags : UInt32) : Bool := nFlags &&& 1 != 0

variable {b : CBlock} {now : Int} {env : Env} {genesis : BlockRecord} {start : Ledger}

theorem hasStakeFlag_flagsOf {hash : Uint256} {generated : Bool} :
    hasStakeFlag (flagsOf b hash generated) = isProofOfStake b := by
  have bits : ∀ stake entropy modifier : Bool, hasStakeFlag ((if stake then 1 else 0) |||
      (if entropy then 2 else 0) ||| (if modifier then 4 else 0)) = stake := by decide
  simpa [flagsOf] using bits (isProofOfStake b) (decide (hash.toNat % 2 = 1)) generated

/-- The flags, the proof hash and the modifier, hashed with the checksum of the parent. -/
def getStakeModifierChecksum (env : Env) (previous : Option UInt32) (nFlags : UInt32)
    (hashProof : Uint256) (nStakeModifier : UInt64) : UInt32 :=
  UInt32.ofNat ((env.hash ((previous.map writeUint32).getD [] ++ writeUint32 nFlags ++
    writeUint256 (if hasStakeFlag nFlags then hashProof else 0) ++
    leBytes 8 nStakeModifier.toNat)).toNat / 2 ^ 224)

/-- `mapStakeModifierCheckpoints` of both networks. -/
def stakeModifierCheckpoints (env : Env) : List (Nat × UInt32) :=
  if env.fTestNet then [(0, 0xfd11f4e7)] else [(0, 0x0e00670b), (87500, 0x52296ad7)]

def checkStakeModifierCheckpoints (env : Env) (nHeight : Nat) (nStakeModifierChecksum : UInt32) :
    Bool :=
  match (stakeModifierCheckpoints env).lookup nHeight with
  | some checksum => nStakeModifierChecksum == checksum
  | none => true

def entryFlags (stake : StakeTable) (pindex : CBlockIndex) : UInt32 :=
  flagsOf (blockOf pindex) (getBlockHash pindex) (stake pindex).generated

def checksumOf (env : Env) (stake : StakeTable) : CBlockIndex → UInt32
  | .root record =>
    getStakeModifierChecksum env none (entryFlags stake (.root record))
      (stake (.root record)).hashProof (stake (.root record)).nStakeModifier
  | .grow p record =>
    getStakeModifierChecksum env (some (checksumOf env stake p))
      (entryFlags stake (.grow p record)) (stake (.grow p record)).hashProof
      (stake (.grow p record)).nStakeModifier

/-- The entry of a block in memory. -/
def entryOf (env : Env) (stake : StakeTable) (ledger : Ledger) (pindex : CBlockIndex) :
    IndexEntry where
  pprev := (pprev pindex).map getBlockHash
  pnext := (ledger.pnext pindex).map getBlockHash
  nFile := (value pindex).nFile
  nBlockPos := (value pindex).nBlockPos
  nChainTrust := nChainTrust pindex
  nHeight := nHeight pindex
  nMint := ledger.nMint pindex
  nMoneySupply := ledger.nMoneySupply pindex
  nFlags := entryFlags stake pindex
  nStakeModifier := (stake pindex).nStakeModifier
  nStakeModifierChecksum := checksumOf env stake pindex
  stake := getProofOfStake (blockOf pindex)
  hashProof := (stake pindex).hashProof
  nVersion := (blockOf pindex).nVersion
  hashMerkleRoot := (blockOf pindex).hashMerkleRoot
  nTime := (blockOf pindex).nTime
  nBits := (blockOf pindex).nBits
  nNonce := (blockOf pindex).nNonce

/-! ## AddToBlockIndex with all fields -/

structure IndexNode where
  chain : ChainState
  stake : StakeTable
  /-- The same fields as the block index records hold them. -/
  diskStake : Uint256 → StakeFields
  setStakeSeen : Finset Stake

/-- `adjustedTime` is the clock when a block is connected during the call. -/
structure IndexCall where
  new : NewBlock
  hashProof : Uint256
  adjustedTime : CBlockIndex → Int

def seen (b : CBlock) (stakes : Finset Stake) : Finset Stake :=
  if isProofOfStake b then insert (getProofOfStake b) stakes else stakes

def addIndex (env : Env) (node : IndexNode) (call : IndexCall) : Except Fault (Bool × IndexNode) :=
  let pindexNew := newIndex env node.chain call.new
  let hash := getHash env call.new.block
  if (node.chain.mapBlockIndex.lookup hash).isSome then .ok (false, node)
  else
    match computeNextStakeModifier env node.stake (fun hash => node.chain.mapBlockIndex.lookup hash)
        (pprev pindexNew) with
    | none => .ok (false, node)
    | some (nStakeModifier, generated) =>
      let fields : StakeFields := ⟨nStakeModifier, generated, call.hashProof⟩
      let stake := Function.update node.stake pindexNew fields
      if checkStakeModifierCheckpoints env (nHeight pindexNew)
          (checksumOf env stake pindexNew) then
        (addToBlockIndex env (coreOps env call.adjustedTime fun _ => true) node.chain
          call.new).map fun result =>
            (result.1, ⟨result.2, stake, Function.update node.diskStake hash fields,
              seen call.new.block node.setStakeSeen⟩)
      else .ok (false, node)

/-- The node after the genesis block was added. -/
def startNode (genesis : BlockRecord) (hashProof : Uint256) (wallets : List CWallet) :
    IndexNode where
  chain := genesisState genesis wallets
  stake := fun _ => ⟨0, true, hashProof⟩
  diskStake := fun _ => ⟨0, true, hashProof⟩
  setStakeSeen := seen genesis.block ∅

/-! ## Records -/

/-- What `CDiskBlockIndex` writes.  The stake is left out of a proof-of-work record. -/
structure DiskIndex where
  hashNext : Uint256
  nFile : UInt32
  nBlockPos : UInt32
  nHeight : Nat
  nMint : Int64
  nMoneySupply : Int64
  nFlags : UInt32
  nStakeModifier : UInt64
  stake : Option Stake
  hashProof : Uint256
  nVersion : Int32
  hashPrev : Uint256
  hashMerkleRoot : Uint256
  nTime : UInt32
  nBits : UInt32
  nNonce : UInt32
  blockHash : Uint256
  deriving DecidableEq

/-- The hash of the header with the parent the record names. -/
def headerHash (env : Env) (nVersion : Int32) (hashPrev hashMerkleRoot : Uint256)
    (nTime nBits nNonce : UInt32) : Uint256 :=
  getHash env ⟨nVersion, hashPrev, hashMerkleRoot, nTime, nBits, nNonce, [], []⟩

/-- A fresh `CDiskBlockIndex` has no `blockHash` yet and computes it for its key. -/
def diskIndex (env : Env) (fields : StakeFields) (disk : CDiskBlockIndex) : DiskIndex :=
  let b := disk.record.block
  let nFlags := flagsOf b disk.record.phashBlock fields.generated
  { hashNext := disk.hashNext
    nFile := disk.record.nFile
    nBlockPos := disk.record.nBlockPos
    nHeight := disk.nHeight
    nMint := disk.nMint
    nMoneySupply := disk.nMoneySupply
    nFlags := nFlags
    nStakeModifier := fields.nStakeModifier
    stake := if hasStakeFlag nFlags then some (getProofOfStake b) else none
    hashProof := fields.hashProof
    nVersion := b.nVersion
    hashPrev := disk.hashPrev
    hashMerkleRoot := b.hashMerkleRoot
    nTime := b.nTime
    nBits := b.nBits
    nNonce := b.nNonce
    blockHash := headerHash env b.nVersion disk.hashPrev b.hashMerkleRoot b.nTime b.nBits b.nNonce }

/-- The block index record under a hash. -/
def recordAt (env : Env) (node : IndexNode) (hash : Uint256) : Option DiskIndex :=
  (asBlockIndex (node.chain.ledger.txdb.store (.blockIndex hash))).map
    (diskIndex env (node.diskStake hash))

def readHashBestChain (node : IndexNode) : Option Uint256 :=
  match node.chain.ledger.txdb.store .hashBestChain with
  | some (.hash hash) => some hash
  | _ => none

/-! ## LoadBlockIndex -/

structure LoadArgs where
  hashGenesisBlock : Uint256
  fUseFastIndex : Bool
  /-- `GetAdjustedTime()` when the index is loaded. -/
  adjustedTime : Int
  /-- Where the object made for a hash lies. -/
  address : Uint256 → Nat
  /-- `-checkblocks`. -/
  checkBlocks : Int
  /-- The block files. -/
  readBlock : UInt32 → UInt32 → Option CBlock

/-- `CDiskBlockIndex::GetBlockHash`. -/
def getDiskHash (env : Env) (args : LoadArgs) (disk : DiskIndex) : Uint256 :=
  if args.fUseFastIndex = true ∧ (disk.nTime.toNat : Int) < args.adjustedTime - 24 * 60 * 60 ∧
      disk.blockHash ≠ 0 then disk.blockHash
  else headerHash env disk.nVersion disk.hashPrev disk.hashMerkleRoot disk.nTime disk.nBits
    disk.nNonce

abbrev IndexMap := AList (fun _ : Uint256 => IndexEntry)

structure Loading where
  mapBlockIndex : IndexMap
  setStakeSeen : Finset Stake
  pindexGenesisBlock : Option Uint256

/-- The null hash stands for no block. -/
def pointer (hash : Uint256) : Option Uint256 := if hash = 0 then none else some hash

/-- `InsertBlockIndex`: what the pointer to it points to exists afterwards. -/
def insertBlockIndex (map : IndexMap) (hash : Uint256) : IndexMap :=
  if hash = 0 then map
  else if (map.lookup hash).isSome then map
  else map.insert hash nullEntry

/-- The object filled from a record; trust and checksum come later. -/
def readEntry (disk : DiskIndex) : IndexEntry where
  pprev := pointer disk.hashPrev
  pnext := pointer disk.hashNext
  nFile := disk.nFile
  nBlockPos := disk.nBlockPos
  nChainTrust := 0
  nHeight := disk.nHeight
  nMint := disk.nMint
  nMoneySupply := disk.nMoneySupply
  nFlags := disk.nFlags
  nStakeModifier := disk.nStakeModifier
  nStakeModifierChecksum := 0
  stake := disk.stake.getD nullStake
  hashProof := disk.hashProof
  nVersion := disk.nVersion
  hashMerkleRoot := disk.hashMerkleRoot
  nTime := disk.nTime
  nBits := disk.nBits
  nNonce := disk.nNonce

/-- One pass of the iterator loop.  A record whose hash is null has no object. -/
def loadRecord (env : Env) (args : LoadArgs) (loading : Loading) (disk : DiskIndex) :
    Option Loading :=
  let blockHash := getDiskHash env args disk
  if blockHash = 0 then none
  else
    let map := insertBlockIndex (insertBlockIndex (insertBlockIndex loading.mapBlockIndex blockHash)
      disk.hashPrev) disk.hashNext
    some {
      mapBlockIndex := map.insert blockHash (readEntry disk)
      setStakeSeen := if hasStakeFlag disk.nFlags then
          insert (disk.stake.getD nullStake) loading.setStakeSeen
        else loading.setStakeSeen
      pindexGenesisBlock :=
        if loading.pindexGenesisBlock = none ∧ blockHash = args.hashGenesisBlock then some blockHash
        else loading.pindexGenesisBlock }

def heightIn (map : IndexMap) (hash : Uint256) : Nat :=
  ((map.lookup hash).map IndexEntry.nHeight).getD 0

def lower (args : LoadArgs) (map : IndexMap) (first second : Uint256) : Prop :=
  heightIn map first < heightIn map second ∨
    heightIn map first = heightIn map second ∧ args.address first ≤ args.address second

instance (args : LoadArgs) (map : IndexMap) : DecidableRel (lower args map) := fun first second =>
  inferInstanceAs (Decidable (heightIn map first < heightIn map second ∨
    heightIn map first = heightIn map second ∧ args.address first ≤ args.address second))

def vSortedByHeight (args : LoadArgs) (map : IndexMap) : List Uint256 :=
  map.keys.insertionSort (lower args map)

/-- Trust and checksum of one entry.  Only the genesis block may lack a parent. -/
def computeTrust (env : Env) (args : LoadArgs) (map : IndexMap) (hash : Uint256) :
    Option IndexMap :=
  match map.lookup hash with
  | none => none
  | some entry =>
    if entry.pprev = none ∧ hash ≠ args.hashGenesisBlock then none
    else
      let parent := entry.pprev.bind fun hash => map.lookup hash
      let checksum := getStakeModifierChecksum env (parent.map IndexEntry.nStakeModifierChecksum)
        entry.nFlags entry.hashProof entry.nStakeModifier
      if checkStakeModifierCheckpoints env entry.nHeight checksum then
        some (map.insert hash { entry with
          nChainTrust := ((parent.map IndexEntry.nChainTrust).getD 0 + getTrust entry.nBits) %
            2 ^ 256
          nStakeModifierChecksum := checksum })
      else none

def nCheckDepth (args : LoadArgs) (nBestHeight : Int) : Int :=
  min (if args.checkBlocks = 0 then 1000000000 else args.checkBlocks) nBestHeight

/-- The blocks back from the best one are read and checked; the result is the block the
best chain is to be moved back to, if there is one.  Only a cycle of parents would need
more passes than there are entries. -/
def verifyBlocks (env : Env) (args : LoadArgs) (map : IndexMap) (lowest : Int) :
    Nat → Uint256 → Option Uint256 → Option (Option Uint256)
  | 0, _, _ => none
  | fuel + 1, hash, pindexFork =>
    match map.lookup hash with
    | none => none
    | some entry =>
      match entry.pprev with
      | none => some pindexFork
      | some prev =>
        if (entry.nHeight : Int) < lowest then some pindexFork
        else
          match args.readBlock entry.nFile entry.nBlockPos with
          | none => none
          | some b =>
            if getHash env b = hash then
              verifyBlocks env args map lowest fuel prev
                (if checkBlock env args.adjustedTime b true true false then pindexFork
                else some prev)
            else none

/-- `pindexFork` is where the best chain is moved back to at the end, if anywhere. -/
structure Loaded where
  mapBlockIndex : IndexMap
  setStakeSeen : Finset Stake
  hashBestChain : Uint256
  nBestHeight : Int
  nBestChainTrust : Nat
  pindexFork : Option Uint256

def loadBlockIndex (env : Env) (args : LoadArgs) (records : List DiskIndex)
    (hashBestChain : Option Uint256) : Option Loaded := do
  let loading ← records.foldlM (loadRecord env args) ⟨∅, ∅, none⟩
  let map ← (vSortedByHeight args loading.mapBlockIndex).foldlM (computeTrust env args)
    loading.mapBlockIndex
  match hashBestChain with
  | none =>
    if loading.pindexGenesisBlock = none then some ⟨map, loading.setStakeSeen, 0, -1, 0, none⟩
    else none
  | some best =>
    let entry ← map.lookup best
    let pindexFork ← verifyBlocks env args map (entry.nHeight - nCheckDepth args entry.nHeight)
      map.keys.length best none
    some ⟨map, loading.setStakeSeen, best, entry.nHeight, entry.nChainTrust, pindexFork⟩

/-! ## Runs -/

/-- The database stands at a block after blocks were connected and disconnected, all of
them before the clock shows `now`. -/
inductive Attached (env : Env) (now : Int) (start : Ledger) (genesis : BlockRecord) :
    Ledger → CBlockIndex → Prop where
  | start : Attached env now start genesis start (.root genesis)
  | connect {adjustedTime : Int} {pool : PoolLookup} {ledger next : Ledger} {tip : CBlockIndex}
      {record : BlockRecord} (past : Attached env now start genesis ledger tip)
      (early : adjustedTime ≤ now)
      (run : connectBlock env adjustedTime pool ledger record.block (.grow tip record) =
        some next) : Attached env now start genesis next (.grow tip record)
  | disconnect {ledger next : Ledger} {tip : CBlockIndex} {record : BlockRecord}
      (past : Attached env now start genesis ledger (.grow tip record))
      (run : disconnectBlock env ledger record.block (.grow tip record) = some next) :
      Attached env now start genesis next tip
  | settle {ledger other : Ledger} {tip : CBlockIndex}
      (past : Attached env now start genesis ledger tip)
      (same : txView other.txdb = txView ledger.txdb) : Attached env now start genesis other tip

theorem checkBlock_later {adjustedTime : Int} {fCheckPOW fCheckMerkleRoot fCheckSig : Bool}
    (early : adjustedTime ≤ now)
    (passes : checkBlock env adjustedTime b fCheckPOW fCheckMerkleRoot fCheckSig = true) :
    checkBlock env now b fCheckPOW fCheckMerkleRoot fCheckSig = true := by
  simp only [checkBlock, Bool.and_eq_true, decide_eq_true_eq] at passes ⊢
  obtain ⟨⟨⟨⟨⟨⟨⟨front, drift⟩, coinbase⟩, stake⟩, transactions⟩, distinct⟩, sigOps⟩, root⟩ := passes
  refine ⟨⟨⟨⟨⟨⟨⟨front, ?_⟩, coinbase⟩, stake⟩, transactions⟩, distinct⟩, sigOps⟩, root⟩
  simp only [futureDrift] at drift ⊢
  omega

theorem Attached.checked {ledger : Ledger} {tip : CBlockIndex}
    (attached : Attached env now start genesis ledger tip) : ∀ p record, .grow p record ∈ path tip →
      checkBlock env now record.block true true false = true := by
  induction attached with
  | start =>
    intro p record member
    simp [path] at member
  | @connect adjustedTime pool ledger next tip last past early run ih =>
    intro p record member
    rcases mem_path_grow.mp member with below | same
    · exact ih p record below
    · obtain ⟨rfl, rfl⟩ := Branch.grow.inj same
      unfold connectBlock at run
      split_ifs at run with passes
      exact checkBlock_later early passes
  | disconnect past run ih =>
    intro p record member
    exact ih p record (mem_path_grow.mpr (Or.inl member))
  | settle past same ih => exact ih

theorem tracks_attached {adjustedTime : CBlockIndex → Int} {checkStakeModifier : CBlockIndex → Bool}
    (early : ∀ pindex, adjustedTime pindex ≤ now) :
    Tracks (coreOps env adjustedTime checkStakeModifier) (fun _ => True)
      (Attached env now start genesis) where
  connect _ past run := .connect past (early _) run
  disconnect past run := .disconnect past run
  congr same past := .settle past same

/-- Calls after which a restart finds everything: the block comes with its parent in the
index, is in the block files and has a hash that is not null, the clock is not ahead of
the restart, and the postponed blocks, if any, can be connected. -/
structure RestartStep (env : Env) (args : LoadArgs) (node : IndexNode) (call : IndexCall) :
    Prop where
  parent : (node.chain.mapBlockIndex.lookup call.new.block.hashPrevBlock).isSome = true
  nonzero : getHash env call.new.block ≠ 0
  file : args.readBlock call.new.nFile call.new.nBlockPos = some call.new.block
  clock : ∀ pindex, call.adjustedTime pindex ≤ args.adjustedTime
  connects : PostponedAccepted env (coreOps env call.adjustedTime fun _ => true) node.chain call.new

def indexStep (env : Env) (node : IndexNode) (call : IndexCall) : Option IndexNode :=
  (addIndex env node call).toOption.map Prod.snd

theorem checksumOf_congr {stake other : StakeTable} {pindex : CBlockIndex}
    (same : ∀ p ∈ path pindex, other p = stake p) :
    checksumOf env other pindex = checksumOf env stake pindex := by
  induction pindex with
  | root record => simp only [checksumOf, entryFlags, same _ (self_mem_path _)]
  | grow p record ih =>
    have below := ih fun q member =>
      same q (mem_path_grow.mpr (Or.inl member))
    simp only [checksumOf, entryFlags, same _ (self_mem_path _), below]

/-- What a restart relies on. -/
structure Restartable (env : Env) (args : LoadArgs) (start : Ledger) (genesis : BlockRecord)
    (node : IndexNode) : Prop where
  persisted : Persisted env genesis (Attached env args.adjustedTime start genesis) node.chain
  nonzero : ∀ p, IndexedIn node.chain p → getBlockHash p ≠ 0
  fields : ∀ p, IndexedIn node.chain p → node.diskStake (getBlockHash p) = node.stake p
  checksums : ∀ p, IndexedIn node.chain p →
    checkStakeModifierCheckpoints env (nHeight p) (checksumOf env node.stake p) = true
  stakes : ∀ stake, stake ∈ node.setStakeSeen ↔ ∃ p, IndexedIn node.chain p ∧
    isProofOfStake (blockOf p) = true ∧ getProofOfStake (blockOf p) = stake
  files : ∀ p record, IndexedIn node.chain (.grow p record) →
    args.readBlock record.nFile record.nBlockPos = some record.block

theorem mem_seen {stakes : Finset Stake} {stake : Stake} : stake ∈ seen b stakes ↔
      (isProofOfStake b = true ∧ getProofOfStake b = stake) ∨ stake ∈ stakes := by
  unfold seen
  split_ifs with kind
  · rw [Finset.mem_insert, eq_comm (a := stake)]
    simp [kind]
  · simp [kind]

theorem indexStep_cases {node next : IndexNode} {call : IndexCall}
    (run : indexStep env node call = some next) : next = node ∨ ∃ fields chain done,
      node.chain.mapBlockIndex.lookup (getHash env call.new.block) = none ∧
      checkStakeModifierCheckpoints env (nHeight (newIndex env node.chain call.new))
        (checksumOf env (update node.stake (newIndex env node.chain call.new) fields)
          (newIndex env node.chain call.new)) = true ∧
      addToBlockIndex env (coreOps env call.adjustedTime fun _ => true) node.chain call.new =
        .ok (done, chain) ∧
      next = ⟨chain, update node.stake (newIndex env node.chain call.new) fields,
        update node.diskStake (getHash env call.new.block) fields,
        seen call.new.block node.setStakeSeen⟩ := by
  obtain ⟨⟨done, last⟩, result, rfl⟩ := Option.map_eq_some_iff.mp run
  unfold addIndex at result
  dsimp only at result
  split at result
  · cases result
    exact Or.inl rfl
  · rename_i fresh
    split at result
    · cases result
      exact Or.inl rfl
    · rename_i nStakeModifier generated computed
      split at result
      · rename_i passes
        cases added : addToBlockIndex env (coreOps env call.adjustedTime fun _ => true) node.chain
            call.new with
        | error fault =>
          rw [added] at result
          cases result
        | ok pair =>
          rw [added] at result
          cases result
          exact Or.inr ⟨_, pair.2, pair.1, by simpa using fresh, passes, rfl, rfl⟩
      · cases result
        exact Or.inl rfl

theorem map_addToBlockIndex {ops : BlockOps} {node next : ChainState} {new : NewBlock}
    {done : Bool} (fresh : Unindexed env node new)
    (modifier : ops.checkStakeModifier (newIndex env node new) = true)
    (run : addToBlockIndex env ops node new = .ok (done, next)) :
    next.mapBlockIndex = node.mapBlockIndex.insert (getBlockHash (newIndex env node new))
      (newIndex env node new) := by
  unfold addToBlockIndex at run
  simp only [fresh, Option.isSome_none, Bool.false_eq_true, if_false, modifier, Bool.not_true]
    at run
  split at run
  · cases run
    rfl
  · split at run
    · exact map_set (setResult run)
    · cases run
      rfl

section Step
variable {args : LoadArgs}

theorem persisted_addToBlockIndex {node next : ChainState} {new : NewBlock}
    {adjustedTime : CBlockIndex → Int} {done : Bool}
    (persisted : Persisted env genesis (Attached env now start genesis) node)
    (parent : ParentKnown node new) (clock : ∀ pindex, adjustedTime pindex ≤ now)
    (accepted : PostponedAccepted env (coreOps env adjustedTime fun _ => true) node new)
    (run : BestChain.addToBlockIndex env (coreOps env adjustedTime fun _ => true) node new =
      .ok (done, next)) :
    Persisted env genesis (Attached env now start genesis) next :=
  persisted.add (Core.lawful_coreOps env adjustedTime _) (tracks_attached clock)
    (fun _ tree => rewrites_coreOps tree) (diskWorks_coreOps env adjustedTime _) parent accepted
    (addResult run)

theorem Restartable.step {node next : IndexNode} {call : IndexCall}
    (before : Restartable env args start genesis node)
    (step : RestartStep env args node call)
    (run : indexStep env node call = some next) : Restartable env args start genesis next := by
  rcases indexStep_cases run with rfl | ⟨fields, chain, done, fresh, passes, added, rfl⟩
  · exact before
  have hashed := getBlockHash_newIndex env node.chain call.new
  have inMap := indexedIn_insert fresh (map_addToBlockIndex fresh rfl added)
  obtain ⟨parent, _, shape⟩ := newIndex_shape env step.parent
  have block : blockOf (newIndex env node.chain call.new) = call.new.block := by rw [shape]; rfl
  -- an old entry is neither the new one nor above it
  have otherHash : ∀ p, IndexedIn node.chain p → getBlockHash p ≠ getHash env call.new.block :=
    fun p member => hashed ▸ Unindexed.ne_hash fresh member
  have other : ∀ p, IndexedIn node.chain p → p ≠ newIndex env node.chain call.new :=
    fun p member same => Unindexed.ne_hash fresh member (congrArg getBlockHash same)
  have persisted := persisted_addToBlockIndex before.persisted step.parent step.clock step.connects
    added
  refine ⟨persisted, ?_, ?_, ?_, ?_, ?_⟩
  · intro p member
    rcases (inMap p).mp member with rfl | old
    · rw [hashed]
      exact step.nonzero
    · exact before.nonzero p old
  · intro p member
    dsimp only
    rcases (inMap p).mp member with rfl | old
    · rw [hashed, update_self, update_self]
    · rw [update_of_ne (otherHash p old), update_of_ne (other p old)]
      exact before.fields p old
  · intro p member
    rcases (inMap p).mp member with rfl | old
    · exact passes
    · have same : ∀ q ∈ path p, update node.stake (newIndex env node.chain call.new) fields
          q = node.stake q := fun q inside => update_of_ne
        (other q (before.persisted.grown.tree.onPath old q inside)) _ _
      rw [checksumOf_congr same]
      exact before.checksums p old
  · intro stake
    dsimp only
    rw [mem_seen, before.stakes]
    constructor
    · rintro (⟨kind, same⟩ | ⟨p, member, kind, same⟩)
      · exact ⟨_, (inMap _).mpr (Or.inl rfl), block ▸ kind, block ▸ same⟩
      · exact ⟨p, (inMap p).mpr (Or.inr member), kind, same⟩
    · rintro ⟨p, member, kind, same⟩
      rcases (inMap p).mp member with rfl | old
      · rw [block] at kind same
        exact Or.inl ⟨kind, same⟩
      · exact Or.inr ⟨p, old, kind, same⟩
  · intro p record member
    rcases (inMap _).mp member with new | old
    · rw [shape] at new
      cases new
      exact step.file
    · exact before.files p record old

theorem restartable_start (hashProof : Uint256) (wallets : List CWallet)
    (hashed : getHash env genesis.block = genesis.phashBlock) (nonzero : genesis.phashBlock ≠ 0)
    (checkpoint : checkStakeModifierCheckpoints env 0
      (checksumOf env (fun _ => ⟨0, true, hashProof⟩) (.root genesis)) = true) :
    Restartable env args (genesisState genesis wallets).ledger genesis
      (startNode genesis hashProof wallets) := by
  have only := indexedIn_genesis genesis wallets
  refine ⟨persisted_genesis hashed .start, ?_, fun _ _ => rfl, ?_, ?_, ?_⟩
  · intro p member
    obtain rfl := (only p).mp member
    exact nonzero
  · intro p member
    obtain rfl := (only p).mp member
    exact checkpoint
  · intro stake
    change stake ∈ seen genesis.block ∅ ↔ _
    rw [mem_seen]
    constructor
    · rintro (⟨kind, same⟩ | absent)
      · exact ⟨.root genesis, (only _).mpr rfl, kind, same⟩
      · cases absent
    · rintro ⟨p, member, kind, same⟩
      obtain rfl := (only p).mp member
      exact Or.inl ⟨kind, same⟩
  · intro p record member
    cases (only _).mp member

end Step

end SynergyChain.LoadBlockIndex
