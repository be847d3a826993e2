import SynergyFormal.Lib.Session
import SynergyFormal.Chain.Core

/-!
# Runs of AddToBlockIndex

`mapBlockIndex` grows by one entry a call and stays a tree below the genesis block.
`Grown` is what every call keeps as long as the switches it makes end where they should;
the results about runs extend it.
-/

set_option autoImplicit false

namespace SynergyChain.BlockMap

open SynergyLib SynergyData SynergyLedger
open Function SynergyLib.BatchStore SynergyLib.Tree Transaction Block TxDB Inputs Wallet
  ConnectBlock SpentIndex SynergyPool.MemPool BestChain Switch SynergyChain.Core

/-! ## Results of a call -/

/-- The state in which `SetBestChain` is called for a new entry. -/
def indexed (node : ChainState) (pindexNew : CBlockIndex) : ChainState :=
  writeIndex (insertIndex node pindexNew) pindexNew

inductive AddResult (env : Env) (ops : BlockOps) (node : ChainState) (new : NewBlock) :
    Bool → ChainState → Prop where
  | refused : AddResult env ops node new false node
  | unwritten (fresh : node.mapBlockIndex.lookup (getHash env new.block) = none)
      (fails : ops.commitsIndex (newIndex env node new) = false) :
      AddResult env ops node new false (insertIndex node (newIndex env node new))
  | kept (fresh : node.mapBlockIndex.lookup (getHash env new.block) = none)
      (low : nChainTrust (newIndex env node new) ≤ node.nBestChainTrust) :
      AddResult env ops node new true (indexed node (newIndex env node new))
  | tried {done : Bool} {next : ChainState}
      (fresh : node.mapBlockIndex.lookup (getHash env new.block) = none)
      (high : node.nBestChainTrust < nChainTrust (newIndex env node new))
      (result : SetResult env ops (indexed node (newIndex env node new)) (newIndex env node new)
        done next) :
      AddResult env ops node new done next

variable {env : Env} {ops : BlockOps} {node next : ChainState} {pindexNew : CBlockIndex}
  {new : NewBlock} {done : Bool}

/-- The block has no entry yet. -/
abbrev Unindexed (env : Env) (node : ChainState) (new : NewBlock) : Prop :=
  node.mapBlockIndex.lookup (getHash env new.block) = none

/-- Its parent has one. -/
abbrev ParentKnown (node : ChainState) (new : NewBlock) : Prop :=
  (node.mapBlockIndex.lookup new.block.hashPrevBlock).isSome = true

theorem addResult (run : addToBlockIndex env ops node new = .ok (done, next)) :
    AddResult env ops node new done next := by
  unfold addToBlockIndex at run
  dsimp only at run
  split_ifs at run with duplicate modifier unwritten high
  · cases run
    exact .refused
  · cases run
    exact .refused
  · have fresh : Unindexed env node new := by
      simpa using duplicate
    cases run
    exact .unwritten fresh (by simpa using unwritten)
  · have fresh : Unindexed env node new := by
      simpa using duplicate
    exact .tried fresh high (setResult run)
  · have fresh : Unindexed env node new := by
      simpa using duplicate
    cases run
    exact .kept fresh (not_lt.mp high)

/-! ## The map under the calls -/

theorem map_invalidChainFound :
    (invalidChainFound node pindexNew).mapBlockIndex = node.mapBlockIndex :=
  (sameMemory_invalidChainFound node pindexNew).mapBlockIndex

theorem map_inner (result : InnerResult env ops (begun node) pindexNew done next) :
    next.mapBlockIndex = node.mapBlockIndex := by
  cases result with
  | rejected fails => exact map_invalidChainFound
  | uncommitted connects fails => rfl
  | attached connects commits cleared => rfl

theorem map_reorganize (result : ReorganizeResult env ops (begun node) pindexNew done next) :
    next.mapBlockIndex = node.mapBlockIndex := by
  cases result <;> rfl

theorem map_secondary {blocks : List CBlockIndex}
    (result : SecondaryResult env ops blocks node next) :
    next.mapBlockIndex = node.mapBlockIndex := by
  induction result with
  | finished => rfl
  | unreadable fails => rfl
  | failed readable inner => exact map_inner inner
  | attached readable inner others ih =>
    exact ih.trans (map_inner inner)

theorem map_set (result : SetResult env ops node pindexNew done next) :
    next.mapBlockIndex = node.mapBlockIndex := by
  cases result with
  | extended child inner =>
    have kept := map_inner inner
    exact kept
  | notExtended child inner => exact map_inner inner
  | switched branch reorganised secondary =>
    exact (map_secondary secondary).trans (map_reorganize reorganised)
  | notSwitched branch reorganised =>
    have kept := map_reorganize reorganised
    exact map_invalidChainFound.trans kept

theorem map_add (result : AddResult env ops node new done next) :
    (done = false ∧ next.mapBlockIndex = node.mapBlockIndex) ∨
      (Unindexed env node new ∧
        next.mapBlockIndex = node.mapBlockIndex.insert (getBlockHash (newIndex env node new))
          (newIndex env node new)) := by
  cases result with
  | refused => exact Or.inl ⟨rfl, rfl⟩
  | unwritten fresh fails => exact Or.inr ⟨fresh, rfl⟩
  | kept fresh low => exact Or.inr ⟨fresh, rfl⟩
  | tried fresh high result => exact Or.inr ⟨fresh, map_set result⟩

/-! ## The tree in the map -/

def IndexedIn (node : ChainState) (pindex : CBlockIndex) : Prop :=
  node.mapBlockIndex.lookup (getBlockHash pindex) = some pindex

/-- A call whose parent block is in the map. -/
structure Arrives (env : Env) (Candidate : CBlockIndex → Prop) (node : ChainState)
    (new : NewBlock) : Prop where
  parent : (node.mapBlockIndex.lookup new.block.hashPrevBlock).isSome = true
  candidate : Candidate (newIndex env node new)

/-- Each entry stands under its own hash, below the genesis block. -/
structure MapTree (env : Env) (genesis : BlockRecord) (node : ChainState) : Prop where
  keyed : ∀ hash pindex, node.mapBlockIndex.lookup hash = some pindex → getBlockHash pindex = hash
  tree : BlockTree env genesis (IndexedIn node)

structure Grown (env : Env) (genesis : BlockRecord) (Candidate : CBlockIndex → Prop)
    (Conn : Ledger → CBlockIndex → Prop) (node : ChainState) : Prop where
  keyed : ∀ hash pindex, node.mapBlockIndex.lookup hash = some pindex → getBlockHash pindex = hash
  tree : BlockTree env genesis (IndexedIn node)
  candidates : ∀ tip record, IndexedIn node (.grow tip record) → Candidate (.grow tip record)
  best : IndexedIn node node.pindexBest
  settled : Settled Conn node
  trust : node.nBestChainTrust = nChainTrust node.pindexBest

section Growth
variable {genesis : BlockRecord} {Candidate Indexed : CBlockIndex → Prop}
  {Conn : Ledger → CBlockIndex → Prop}

theorem newIndex_shape (env : Env) (parent : ParentKnown node new) :
    ∃ p, node.mapBlockIndex.lookup new.block.hashPrevBlock = some p ∧
      newIndex env node new =
        .grow p ⟨getHash env new.block, new.nFile, new.nBlockPos, new.block⟩ := by
  obtain ⟨p, found⟩ := Option.isSome_iff_exists.mp parent
  exact ⟨p, found, by simp [newIndex, found]⟩

theorem newIndex_ne_root (parent : ParentKnown node new) :
    newIndex env node new ≠ .root genesis := by
  obtain ⟨p, _, shape⟩ := newIndex_shape env parent
  rw [shape]
  intro impossible
  cases impossible

theorem getBlockHash_newIndex (env : Env) (node : ChainState) (new : NewBlock) :
    getBlockHash (newIndex env node new) = getHash env new.block := by
  unfold newIndex
  split <;> rfl

section Fresh
variable (fresh : Unindexed env node new)
include fresh

theorem Unindexed.ne_hash {pindex : CBlockIndex} (old : IndexedIn node pindex) :
    getBlockHash pindex ≠ getBlockHash (newIndex env node new) := by
  rw [getBlockHash_newIndex]
  intro same
  rw [IndexedIn, same, fresh] at old
  cases old

theorem indexedIn_insert (map : next.mapBlockIndex =
      node.mapBlockIndex.insert (getBlockHash (newIndex env node new)) (newIndex env node new))
    (pindex : CBlockIndex) :
    IndexedIn next pindex ↔ pindex = newIndex env node new ∨ IndexedIn node pindex := by
  by_cases same : getBlockHash pindex = getBlockHash (newIndex env node new)
  · rw [IndexedIn, map, same, AList.lookup_insert, Option.some.injEq, eq_comm]
    exact (or_iff_left fun old => fresh.ne_hash old same).symm
  · rw [IndexedIn, map, AList.lookup_insert_ne same]
    exact (or_iff_right fun equal => same (congrArg getBlockHash equal)).symm

theorem indexedIn_indexed (pindex : CBlockIndex) :
    IndexedIn (indexed node (newIndex env node new)) pindex ↔
      pindex = newIndex env node new ∨ IndexedIn node pindex :=
  indexedIn_insert fresh rfl pindex

theorem newIndex_indexed :
    IndexedIn (indexed node (newIndex env node new)) (newIndex env node new) :=
  (indexedIn_indexed fresh _).mpr (Or.inl rfl)

end Fresh

theorem indexedIn_of_map (map : next.mapBlockIndex = node.mapBlockIndex) :
    IndexedIn next = IndexedIn node := by
  funext pindex
  rw [IndexedIn, IndexedIn, map]

theorem MapTree.of_map (tree : MapTree env genesis node)
    (map : next.mapBlockIndex = node.mapBlockIndex) : MapTree env genesis next := by
  refine ⟨?_, indexedIn_of_map map ▸ tree.tree⟩
  rw [map]
  exact tree.keyed

theorem MapTree.found (tree : MapTree env genesis node) {hash : Uint256} {pindex : CBlockIndex}
    (lookup : node.mapBlockIndex.lookup hash = some pindex) :
    IndexedIn node pindex ∧ getBlockHash pindex = hash := by
  have own := tree.keyed hash pindex lookup
  refine ⟨?_, own⟩
  rw [IndexedIn, own, lookup]

theorem MapTree.insert (tree : MapTree env genesis node) (parent : ParentKnown node new)
    (fresh : Unindexed env node new)
    (map : next.mapBlockIndex =
      node.mapBlockIndex.insert (getBlockHash (newIndex env node new)) (newIndex env node new)) :
    MapTree env genesis next := by
  obtain ⟨p, found, shape⟩ := newIndex_shape env parent
  have hashed := getBlockHash_newIndex env node new
  have inMap := indexedIn_insert fresh map
  obtain ⟨parentIn, parentHash⟩ := tree.found found
  refine ⟨?_, ⟨?_, ?_, ?_, ?_⟩⟩
  · intro hash pindex present
    rw [map] at present
    rcases lookup_insert_cases present with ⟨rfl, rfl⟩ | ⟨_, old⟩
    · rfl
    · exact tree.keyed hash pindex old
  · intro pindex member
    rcases (inMap pindex).mp member with rfl | old
    · rw [shape]
      exact tree.tree.rooted p parentIn
    · exact tree.tree.rooted pindex old
  · intro pindex member
    rcases (inMap pindex).mp member with rfl | old
    · rw [hashed, shape]
      rfl
    · exact tree.tree.hashed pindex old
  · intro q record member
    rcases (inMap _).mp member with new | old
    · rw [shape] at new
      cases new
      exact ⟨(inMap _).mpr (Or.inr parentIn), parentHash.symm⟩
    · obtain ⟨qIn, prev⟩ := tree.tree.parents q record old
      exact ⟨(inMap q).mpr (Or.inr qIn), prev⟩
  · intro a b aIn bIn same
    rw [IndexedIn, same] at aIn
    exact Option.some.inj (aIn.symm.trans bIn)

theorem store_indexed (closed : node.ledger.txdb.activeBatch = none) {key : DbKey}
    (other : ∀ hash, key ≠ .blockIndex hash) :
    (indexed node pindexNew).ledger.txdb.store key = node.ledger.txdb.store key := by
  have begin := view_txnBegin node.ledger.txdb closed
  have written := view_write (txnBegin node.ledger.txdb) (.blockIndex (value pindexNew).phashBlock)
    (.blockIndex (diskBlockIndex (insertIndex node pindexNew).ledger pindexNew))
  have plain : view node.ledger.txdb = node.ledger.txdb.store := by simp [view, closed]
  have here := congrFun written key
  rw [update_of_ne (other _), begin, plain] at here
  exact here

theorem txView_indexed (pindexNew : CBlockIndex) (closed : node.ledger.txdb.activeBatch = none) :
    txView (indexed node pindexNew).ledger.txdb = txView node.ledger.txdb :=
  txView_of_store rfl closed fun _ => store_indexed closed (by simp)

theorem at_indexed {tip : CBlockIndex} (tracks : Tracks ops Indexed Conn)
    (outside : pindexNew ∉ path tip) (standing : At Conn tip node) :
    At Conn tip (indexed node pindexNew) := by
  refine ⟨rfl, (store_indexed standing.closed (by simp)).trans standing.record,
    tracks.congr (txView_indexed pindexNew standing.closed) standing.connected, ?_⟩
  have links : (indexed node pindexNew).ledger.pnext =
      update node.ledger.pnext pindexNew none := rfl
  rw [links, standing.forward, ← links_outside outside, update_eq_self]

variable (lawful : LawfulOps ops) (tracks : Tracks ops Indexed Conn)
  (grown : Grown env genesis Candidate Conn node)
include grown

include tracks in
theorem Grown.indexed (arrives : Arrives env Candidate node new) (fresh : Unindexed env node new) :
    Grown env genesis Candidate Conn (BlockMap.indexed node (newIndex env node new)) := by
  have inMap := indexedIn_indexed fresh
  have whole : MapTree env genesis (BlockMap.indexed node (newIndex env node new)) :=
    MapTree.insert ⟨grown.keyed, grown.tree⟩ arrives.parent fresh rfl
  refine ⟨whole.keyed, whole.tree, ?_, (inMap _).mpr (Or.inr grown.best), ⟨?_, grown.settled.memory⟩,
    grown.trust⟩
  · intro tip record member
    rcases (inMap _).mp member with new | old
    · rw [new]
      exact arrives.candidate
    · exact grown.candidates tip record old
  · refine at_indexed tracks ?_ grown.settled.standing
    exact fun inside => fresh.ne_hash (grown.tree.onPath grown.best _ inside) rfl

theorem Grown.of_map (map : next.mapBlockIndex = node.mapBlockIndex)
    (best : IndexedIn node next.pindexBest) (settled : Settled Conn next)
    (trust : next.nBestChainTrust = nChainTrust next.pindexBest) :
    Grown env genesis Candidate Conn next := by
  have whole : MapTree env genesis next := MapTree.of_map ⟨grown.keyed, grown.tree⟩ map
  have same := indexedIn_of_map map
  refine ⟨whole.keyed, whole.tree, ?_, same ▸ best, settled, trust⟩
  rw [same]
  exact grown.candidates

include lawful tracks in
theorem Grown.failed (result : SetResult env ops node pindexNew false next) :
    Grown env genesis Candidate Conn next ∧ next.pindexBest = node.pindexBest := by
  obtain ⟨standing, memory⟩ := grown.settled.failed lawful tracks result
  refine ⟨grown.of_map memory.mapBlockIndex ?_ ⟨?_, ?_⟩ ?_, memory.pindexBest⟩
  · rw [memory.pindexBest]
    exact grown.best
  · rw [memory.pindexBest]
    exact standing
  · rw [memory.hashBestChain, memory.pindexBest, grown.settled.memory]
  · rw [memory.nBestChainTrust, memory.pindexBest, grown.trust]

theorem Grown.succeeded {last : ChainState} (member : IndexedIn node pindexNew)
    (memory : SameMemory node last) (standing : At Conn pindexNew (newBest env pindexNew last)) :
    Grown env genesis Candidate Conn (newBest env pindexNew last) :=
  grown.of_map memory.mapBlockIndex member ⟨standing, grown.tree.hashed _ member⟩ rfl

include lawful tracks in
/-- A switch whose postponed blocks are all attached.  Only the blocks in `Indexed` can be
connected by it. -/
theorem Grown.set (tree : BlockTree env genesis Indexed) (best : Indexed node.pindexBest)
    (new : Indexed pindexNew) (member : IndexedIn node pindexNew)
    (child : pindexNew ≠ .root genesis)
    (free : ∀ p ∈ postponed node pindexNew, ¬Blocked ops (postponedCalls env ops node pindexNew) p)
    (result : SetResult env ops node pindexNew done next) :
    Grown env genesis Candidate Conn next ∧
      next.pindexBest = if done then pindexNew else node.pindexBest := by
  cases done with
  | true =>
    obtain ⟨reached, _, last, rfl, standing, memory, ends⟩ :=
      reached_of_set tree lawful tracks best new (fun root => absurd root child) grown.settled
        result
    rcases ends with ⟨rfl, _⟩ | ⟨_, p, later, blocked⟩
    · exact ⟨grown.succeeded member memory (standing.newBest tracks), rfl⟩
    · exact absurd blocked (free p later)
  | false => exact grown.failed lawful tracks result

include lawful tracks in
theorem Grown.height (height : node.ledger.nBestHeight = nHeight node.pindexBest)
    (result : SetResult env ops node pindexNew done next) :
    next.ledger.nBestHeight = nHeight next.pindexBest := by
  cases done with
  | true => cases result <;> rfl
  | false =>
    obtain ⟨_, memory⟩ := grown.settled.failed lawful tracks result
    rw [memory.nBestHeight, memory.pindexBest, height]

end Growth

/-! ## Runs -/

/-- No disk failure. -/
structure DiskWorks (ops : BlockOps) : Prop where
  readable : ∀ pindex, ops.readable pindex = true
  commits : ∀ pindex, ops.commits pindex = true
  commitsIndex : ∀ pindex, ops.commitsIndex pindex = true

theorem diskWorks_coreOps (env : Env) (adjustedTime : CBlockIndex → Int)
    (checkStakeModifier : CBlockIndex → Bool) :
    DiskWorks (coreOps env adjustedTime checkStakeModifier) :=
  ⟨fun _ => rfl, fun _ => rfl, fun _ => rfl⟩

/-- If the switch to the new block postpones blocks, `ConnectBlock` accepts them where it is
called for them. -/
abbrev PostponedAccepted (env : Env) (ops : BlockOps) (node : ChainState) (new : NewBlock) : Prop :=
  node.nBestChainTrust < nChainTrust (newIndex env node new) →
    ∀ call ∈ postponedCalls env ops (indexed node (newIndex env node new)) (newIndex env node new),
      call.accepted ops = true

/-- The other answers of `ConnectBlock` in the switch to the new block are those of a table. -/
abbrev AnswersFrom (accepts : CBlockIndex → Bool) (env : Env) (ops : BlockOps) (node : ChainState)
    (new : NewBlock) : Prop :=
  node.nBestChainTrust < nChainTrust (newIndex env node new) →
    ∀ call ∈ switchCalls ops (indexed node (newIndex env node new)) (newIndex env node new),
      call.accepted ops = accepts call.pindex

theorem free_of_accepted (disk : DiskWorks ops) (accepted : PostponedAccepted env ops node new)
    (high : node.nBestChainTrust < nChainTrust (newIndex env node new)) :
    ∀ p ∈ postponed (indexed node (newIndex env node new)) (newIndex env node new), ¬Blocked ops
      (postponedCalls env ops (indexed node (newIndex env node new)) (newIndex env node new)) p :=
  fun p _ => not_blocked (disk.readable p) (disk.commits p)
    fun call made _ => accepted high call made

theorem Grown.add {Candidate : CBlockIndex → Prop} {Conn : Ledger → CBlockIndex → Prop}
    {genesis : BlockRecord} (lawful : LawfulOps ops) (tracks : Tracks ops Candidate Conn)
    (grown : Grown env genesis Candidate Conn node) (disk : DiskWorks ops)
    (arrives : Arrives env Candidate node new) (accepted : PostponedAccepted env ops node new)
    (result : AddResult env ops node new done next) : Grown env genesis Candidate Conn next := by
  cases result with
  | refused => exact grown
  | unwritten fresh fails =>
    rw [disk.commitsIndex] at fails
    cases fails
  | kept fresh low => exact grown.indexed tracks arrives fresh
  | tried fresh high result =>
    have entered := grown.indexed tracks arrives fresh
    exact (entered.set lawful (tracks.mono entered.candidates) entered.tree entered.best
      (newIndex_indexed fresh) (newIndex_indexed fresh) (newIndex_ne_root arrives.parent)
      (free_of_accepted disk accepted high) result).1

/-- The state after a call that terminates. -/
def addStep (env : Env) (node : ChainState) (call : BlockOps × NewBlock) : Option ChainState :=
  (addToBlockIndex env call.1 node call.2).toOption.map Prod.snd

theorem addStep_result {call : BlockOps × NewBlock} (moved : addStep env node call = some next) :
    ∃ done, AddResult env call.1 node call.2 done next := by
  unfold addStep at moved
  cases run : addToBlockIndex env call.1 node call.2 with
  | error fault =>
    rw [run] at moved
    cases moved
  | ok pair =>
    rw [run] at moved
    cases moved
    exact ⟨pair.1, addResult run⟩

theorem described_genesis (env : Env) (Known : CTransaction → Prop) (genesis : BlockRecord)
    (wallets : List CWallet) :
    Described env Known genesis [] (genesisState genesis wallets).ledger :=
  ⟨rfl, Or.inl rfl⟩

theorem indexedIn_genesis (genesis : BlockRecord) (wallets : List CWallet) (pindex : CBlockIndex) :
    IndexedIn (genesisState genesis wallets) pindex ↔ pindex = .root genesis := by
  have map : (genesisState genesis wallets).mapBlockIndex =
      AList.insert genesis.phashBlock (.root genesis) ∅ := rfl
  unfold IndexedIn
  rw [map]
  by_cases same : getBlockHash pindex = genesis.phashBlock
  · rw [same, AList.lookup_insert, Option.some.injEq, eq_comm]
  · rw [AList.lookup_insert_ne same, AList.lookup_empty]
    constructor
    · intro absent
      cases absent
    · rintro rfl
      exact absurd rfl same

section GetHash
variable (genesis : BlockRecord) (wallets : List CWallet)
  (hashed : getHash env genesis.block = genesis.phashBlock)
include genesis wallets hashed

theorem mapTree_genesis : MapTree env genesis (genesisState genesis wallets) := by
  have only := indexedIn_genesis genesis wallets
  have map : (genesisState genesis wallets).mapBlockIndex =
      AList.insert genesis.phashBlock (.root genesis) ∅ := rfl
  refine ⟨?_, ⟨?_, ?_, ?_, ?_⟩⟩
  · intro hash pindex present
    rw [map] at present
    rcases lookup_insert_cases present with ⟨rfl, rfl⟩ | ⟨_, old⟩
    · rfl
    · cases old
  · intro pindex member
    rw [(only pindex).mp member]
    rfl
  · intro pindex member
    rw [(only pindex).mp member]
    exact hashed
  · intro p record member
    cases (only _).mp member
  · intro p q pIn qIn _
    rw [(only p).mp pIn, (only q).mp qIn]

theorem grown_genesis {Candidate : CBlockIndex → Prop} {Conn : Ledger → CBlockIndex → Prop}
    (connected : Conn (genesisState genesis wallets).ledger (.root genesis)) :
    Grown env genesis Candidate Conn (genesisState genesis wallets) := by
  have only := indexedIn_genesis genesis wallets
  have whole := mapTree_genesis genesis wallets hashed
  refine ⟨whole.keyed, whole.tree, ?_, (only _).mpr rfl, settled_genesis connected, rfl⟩
  intro tip record member
  cases (only _).mp member

end GetHash

/-! ### A run with a switch

`rivalIndex` extends the tip and `saverIndex` on the same parent is kept.  The switch to
`refusedIndex` on it fails, the one to `eighthIndex` succeeds. -/

theorem blockTree_plainBlocks : BlockTree plainEnv toyGenesis (· ∈ plainBlocks) :=
  blockTree_mem (by decide +kernel) (by decide +kernel)

theorem getHash_toyGenesis : getHash plainEnv toyGenesis.block = toyGenesis.phashBlock := by
  decide +kernel

theorem arrived_plainBlocks (tip : CBlockIndex) (record : BlockRecord)
    (listed : .grow tip record ∈ plainBlocks) : Arrived PlainKnown (.grow tip record) := by
  have each : ∀ pindex ∈ plainBlocks, (parent pindex).isSome = true →
      (checkCoinbaseHeight (nHeight pindex) (blockOf pindex) = true ∧
        (value pindex).nFile ≠ 0xffffffff) ∧ ∀ tx ∈ (blockOf pindex).vtx, tx ∈ plainTxs := by
    decide +kernel
  obtain ⟨⟨height, file⟩, known⟩ := each _ listed rfl
  exact ⟨⟨height, file⟩, known⟩

/-- A call with a block of the small chain. -/
structure PlainStep (node : ChainState) (call : BlockOps × NewBlock) : Prop where
  ops : call.1 = toyOps plainEnv
  arrives : Arrives plainEnv (· ∈ plainBlocks) node call.2
  connects : PostponedAccepted plainEnv (toyOps plainEnv) node call.2
  answers : AnswersFrom (fun p => decide (p ≠ refusedIndex)) plainEnv (toyOps plainEnv) node call.2

/-- Takes a block of the small chain if `ConnectBlock` refuses none but `refusedIndex`. -/
def plainly (node : ChainState) (pindex : CBlockIndex) : Option ChainState :=
  let new : NewBlock := ⟨(value pindex).nFile, (value pindex).nBlockPos, blockOf pindex⟩
  if (ParentKnown node new ∧ plainBlocks.contains (newIndex plainEnv node new)) ∧
      PostponedAccepted plainEnv (toyOps plainEnv) node new ∧
      AnswersFrom (fun p => decide (p ≠ refusedIndex)) plainEnv (toyOps plainEnv) node new then
    addStep plainEnv node (toyOps plainEnv, new)
  else none

/-- The state after the first blocks of the small chain. -/
def plainNode (n : Nat) : Option ChainState :=
  (plainBlocks.tail.take n).foldlM plainly (genesisState toyGenesis [])

theorem reached_plainNode {n : Nat} (run : plainNode n = some node) :
    Session.Reached (addStep plainEnv) PlainStep (genesisState toyGenesis []) node := by
  refine .of_foldlM (fun state pindex next moved => ?_) _ .refl run
  unfold plainly at moved
  dsimp only at moved
  split_ifs at moved with plain
  obtain ⟨⟨parent, entry⟩, connects, answers⟩ := plain
  exact ⟨_, ⟨rfl, ⟨parent, List.contains_iff_mem.mp entry⟩, connects, answers⟩, moved⟩

theorem grown_plainNode {n : Nat} {Conn : Ledger → CBlockIndex → Prop}
    (tracks : Tracks (toyOps plainEnv) (· ∈ plainBlocks) Conn)
    (connected : Conn (genesisState toyGenesis []).ledger (.root toyGenesis))
    (run : plainNode n = some node) : Grown plainEnv toyGenesis (· ∈ plainBlocks) Conn node := by
  refine (reached_plainNode run).invariant _
    (grown_genesis toyGenesis [] getHash_toyGenesis connected) ?_
  rintro state ⟨ops, new⟩ next before ⟨rfl, arrives, connects, _⟩ moved
  obtain ⟨done, result⟩ := addStep_result moved
  exact before.add (lawful_coreOps _ _ _) tracks (diskWorks_coreOps _ _ _) arrives connects result

end SynergyChain.BlockMap
