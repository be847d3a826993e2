import SynergyFormal.Chain.BlockMap

/-!
# The pointers to the best chain

After a successful `SetBestChain` the committed record, the pointers in memory, the
transaction index and the `pnext` links should name one block.  The tail of the call
names `pindexNew`, the others stand where the last postponed block was attached.  They
agree exactly when every postponed block could be read, connected and committed.
-/

set_option autoImplicit false

namespace SynergyChain.Pointers

open SynergyData SynergyLedger
open SynergyLib.Tree Transaction Block TxDB Inputs ConnectBlock SpentIndex SynergyPool.MemPool
  BestChain Switch SynergyChain.Core BlockMap

/-- The blocks on the path to a tip, and no others, have been connected to the index. -/
inductive Connected (ops : BlockOps) (Indexed : CBlockIndex → Prop) (start : Ledger)
    (genesis : BlockRecord) : Ledger → CBlockIndex → Prop where
  | start : Connected ops Indexed start genesis start (.root genesis)
  | connect {pool : PoolLookup} {ledger next : Ledger} {tip : CBlockIndex} {record : BlockRecord}
      (member : Indexed (.grow tip record)) (past : Connected ops Indexed start genesis ledger tip)
      (run : ops.connectBlock pool ledger (.grow tip record) = some next) :
      Connected ops Indexed start genesis next (.grow tip record)
  | disconnect {ledger next : Ledger} {tip : CBlockIndex} {record : BlockRecord}
      (past : Connected ops Indexed start genesis ledger (.grow tip record))
      (run : ops.disconnectBlock ledger (.grow tip record) = some next) :
      Connected ops Indexed start genesis next tip
  | settle {ledger other : Ledger} {tip : CBlockIndex}
      (past : Connected ops Indexed start genesis ledger tip)
      (same : txView other.txdb = txView ledger.txdb) :
      Connected ops Indexed start genesis other tip

theorem tracks_connected (ops : BlockOps) (Indexed : CBlockIndex → Prop) (start : Ledger)
    (genesis : BlockRecord) : Tracks ops Indexed (Connected ops Indexed start genesis) where
  connect member past run := .connect member past run
  disconnect past run := .disconnect past run
  congr same past := .settle past same

/-- Memory and database name the same block, its path is connected, and the links lead
along it. -/
structure PointersAgree (ops : BlockOps) (Indexed : CBlockIndex → Prop) (start : Ledger)
    (genesis : BlockRecord) (node : ChainState) : Prop where
  memory : node.hashBestChain = getBlockHash node.pindexBest
  record : node.ledger.txdb.store .hashBestChain = some (.hash node.hashBestChain)
  connected : Connected ops Indexed start genesis node.ledger node.pindexBest
  visits : ∀ fuel, nHeight node.pindexBest ≤ fuel →
    walk node.ledger.pnext fuel (.root genesis) = path node.pindexBest

section Agreement
variable {env : Env} {genesis : BlockRecord} {ops : BlockOps} {Indexed : CBlockIndex → Prop}

theorem Settled.pointersAgree {start : Ledger} {node : ChainState}
    (tree : BlockTree env genesis Indexed) (member : Indexed node.pindexBest)
    (settled : Settled (Connected ops Indexed start genesis) node) :
    PointersAgree ops Indexed start genesis node := by
  refine ⟨settled.memory, ?_, settled.standing.connected, ?_⟩
  · rw [settled.standing.record, settled.memory]
  · intro fuel enough
    rw [settled.standing.forward, ← tree.rooted _ member]
    exact walk_links enough

end Agreement

/-! ## When the pointers agree -/

theorem pointers_agree_iff (env : Env) (genesis : BlockRecord) (ops : BlockOps)
    (Indexed : CBlockIndex → Prop) (start : Ledger) (connects : CBlockIndex → Bool)
    (node next : ChainState) (pindexNew : CBlockIndex) (tree : BlockTree env genesis Indexed)
    (lawful : LawfulOps ops)
    (outcome : ∀ call ∈ postponedCalls env ops node pindexNew,
      call.accepted ops = connects call.pindex)
    (best : Indexed node.pindexBest) (member : Indexed pindexNew)
    (origin : genesis.block.hashPrevBlock ≠ node.hashBestChain)
    (settled : Settled (Connected ops Indexed start genesis) node)
    (run : setBestChain env ops node pindexNew = .ok (true, next)) :
    PointersAgree ops Indexed start genesis next ↔ ∀ p ∈ postponed node pindexNew,
      ops.readable p = true ∧ connects p = true ∧ ops.commits p = true := by
  have tracks := tracks_connected ops Indexed start genesis
  obtain ⟨reached, inside, last, rfl, standing, _, ends⟩ :=
    reached_of_set tree lawful tracks best member (fun _ => origin) settled (setResult run)
  constructor
  · intro agree p listed
    rcases ends with ⟨_, passed⟩ | ⟨short, _⟩
    · obtain ⟨readable, commits, pool, ledger, made, success⟩ := passed p listed
      exact ⟨readable, (outcome _ made).symm.trans success, commits⟩
    · -- the record names the block that was reached, the memory names `pindexNew`
      have record : some (DbValue.hash (getBlockHash reached)) =
          some (.hash (getHash env (blockOf pindexNew))) :=
        standing.record.symm.trans agree.record
      rw [Option.some.injEq, DbValue.hash.injEq, tree.hashed pindexNew member] at record
      exact absurd (tree.distinct _ _ (tree.onPath member _ inside) member record) short
  · intro all
    rcases ends with ⟨rfl, _⟩ | ⟨_, p, listed, blocked⟩
    · apply Settled.pointersAgree tree member
      exact ⟨standing.newBest tracks, tree.hashed _ member⟩
    · obtain ⟨readable, accepted, commits⟩ := all p listed
      refine absurd blocked (not_blocked readable commits fun call made same => ?_)
      rw [outcome call made, same, accepted]

/-- `rivalIndex` is the best block.  The switch to `ninthIndex` reorganises to `eighthIndex` and
attaches the last block after it. -/
theorem pointers_agree_ninthIndex : ∃ node next, plainNode 8 = some node ∧
    node.pindexBest = rivalIndex ∧ postponed node ninthIndex = [ninthIndex] ∧
      setBestChain plainEnv (toyOps plainEnv) node ninthIndex = .ok (true, next) ∧
      PointersAgree (toyOps plainEnv) (· ∈ plainBlocks) (genesisState toyGenesis []).ledger
        toyGenesis next := by
  obtain ⟨node, run, best, later, origin, accepted, next, call, -⟩ : ∃ node ∈ plainNode 8,
      node.pindexBest = rivalIndex ∧ postponed node ninthIndex = [ninthIndex] ∧
        toyGenesis.block.hashPrevBlock ≠ node.hashBestChain ∧
        (∀ call ∈ postponedCalls plainEnv (toyOps plainEnv) node ninthIndex,
          call.accepted (toyOps plainEnv) = true) ∧ ∃ next,
        setBestChain plainEnv (toyOps plainEnv) node ninthIndex = .ok (true, next) ∧ True := by
    decide +kernel
  have grown := grown_plainNode (tracks_connected (toyOps plainEnv) (· ∈ plainBlocks)
    (genesisState toyGenesis []).ledger toyGenesis) .start run
  have listed : rivalIndex ∈ plainBlocks ∧ ninthIndex ∈ plainBlocks := by decide +kernel
  exact ⟨node, next, run, best, later, call, (pointers_agree_iff plainEnv toyGenesis
    (toyOps plainEnv) (· ∈ plainBlocks) _ (fun _ => true) node next ninthIndex
    blockTree_plainBlocks (lawful_coreOps _ _ _) accepted (best ▸ listed.1) listed.2 origin
    grown.settled call).mpr fun _ _ => ⟨rfl, rfl, rfl⟩⟩

/-! ### Two blocks on the genesis block

The second claims more than the subsidy. -/

def paidIndex : CBlockIndex := toyChild (.root toyGenesis) [toyCoinbase 1 100000000]

def greedyIndex : CBlockIndex := toyChild paidIndex [toyCoinbase 2 1000000000000000]

def toyState : ChainState := genesisState toyGenesis []

/-- Reorganising to `greedyIndex` stops at `paidIndex`, and memory names the former. -/
theorem greedyIndex_splits_pointers : ∃ next,
    setBestChain (toyEnv []) (toyOps (toyEnv [])) toyState greedyIndex = .ok (true, next) ∧
      next.hashBestChain = getBlockHash greedyIndex ∧
      next.ledger.txdb.store .hashBestChain = some (.hash (getBlockHash paidIndex)) ∧
      ∀ Indexed, ¬PointersAgree (toyOps (toyEnv [])) Indexed toyState.ledger toyGenesis next := by
  obtain ⟨next, call, memory, record⟩ : ∃ next, setBestChain (toyEnv []) (toyOps (toyEnv []))
      toyState greedyIndex = .ok (true, next) ∧ next.hashBestChain = getBlockHash greedyIndex ∧
        next.ledger.txdb.store .hashBestChain = some (.hash (getBlockHash paidIndex)) := by
    decide +kernel
  have different : getBlockHash paidIndex ≠ getBlockHash greedyIndex := by decide +kernel
  refine ⟨next, call, memory, record, fun Indexed agree => different ?_⟩
  have named := record.symm.trans agree.record
  rw [memory, Option.some.injEq, DbValue.hash.injEq] at named
  exact named

end SynergyChain.Pointers
