import SynergyFormal.Ledger.ConnectBlock
import SynergyFormal.Pool.MemPool

/-!
# Choosing the best chain

`AddToBlockIndex`, `SetBestChain`, `SetBestChainInner` and `Reorganize`.  A switch to
another branch is one database transaction up to the first block that beats the old
tip; the blocks after it are postponed and connected one transaction each.  The tail of
`SetBestChain` then sets the memory pointers, however far the postponed blocks got.

The calls on single blocks are a parameter, so that every outcome of them is covered;
`coreOps` is the instance with the modelled `ConnectBlock` and `DisconnectBlock`.  The
branch of `SetBestChain` for the first call, which only records the genesis block, is
the start of a run.  The wallet locator, the version warning and notifications are left
out, as is `setStakeSeen`, which only `AcceptBlock` reads.
-/

set_option autoImplicit false

namespace SynergyChain.BestChain

open SynergyData SynergyLedger
open SynergyLib.BatchStore SynergyLib.Tree Script Transaction Block TxDB Inputs Wallet ConnectBlock
  SynergyPool.MemPool

structure ChainState where
  ledger : Ledger
  mempool : CTxMemPool
  mapBlockIndex : AList (fun _ : Uint256 => CBlockIndex)
  hashBestChain : Uint256
  pindexBest : CBlockIndex
  nBestChainTrust : Nat
  nBestInvalidTrust : Nat

structure BlockOps where
  connectBlock : PoolLookup → Ledger → CBlockIndex → Option Ledger
  disconnectBlock : Ledger → CBlockIndex → Option Ledger
  /-- `ReadFromDisk(pindex)` finds the block. -/
  readable : CBlockIndex → Bool
  /-- The commit that records this block as the best one succeeds. -/
  commits : CBlockIndex → Bool
  /-- The commit of this new index entry succeeds. -/
  commitsIndex : CBlockIndex → Bool
  /-- The stake modifier can be computed and meets its checkpoint. -/
  checkStakeModifier : CBlockIndex → Bool

/-- The modelled calls without disk failures; `adjustedTime` is the clock when the block
is connected. -/
def coreOps (env : Env) (adjustedTime : CBlockIndex → Int)
    (checkStakeModifier : CBlockIndex → Bool) : BlockOps where
  connectBlock pool ledger pindex :=
    SynergyLedger.ConnectBlock.connectBlock env (adjustedTime pindex) pool ledger (blockOf pindex)
      pindex
  disconnectBlock ledger pindex :=
    SynergyLedger.ConnectBlock.disconnectBlock env ledger (blockOf pindex) pindex
  readable _ := true
  commits _ := true
  commitsIndex _ := true
  checkStakeModifier := checkStakeModifier

/-- The same calls on a disk that may fail. -/
def withDisk (ops : BlockOps) (readable commits commitsIndex : CBlockIndex → Bool) : BlockOps :=
  { ops with readable := readable, commits := commits, commitsIndex := commitsIndex }

def withTxdb (node : ChainState) (txdb : CTxDB) : ChainState :=
  { node with ledger := { node.ledger with txdb := txdb } }

def begun (node : ChainState) : ChainState := withTxdb node (txnBegin node.ledger.txdb)

def aborted (node : ChainState) : ChainState := withTxdb node (txnAbort node.ledger.txdb)

/-- The trust record is written by a database object of its own, outside the
transaction; both callers have aborted theirs. -/
def invalidChainFound (node : ChainState) (pindexNew : CBlockIndex) : ChainState :=
  if node.nBestInvalidTrust < nChainTrust pindexNew then
    { withTxdb node (writeBestInvalidTrust node.ledger.txdb (nChainTrust pindexNew)) with
      nBestInvalidTrust := nChainTrust pindexNew }
  else node

/-! ## Reorganize -/

inductive Move where
  | disconnect (pindex : CBlockIndex)
  | connect (pindex : CBlockIndex)
  deriving DecidableEq

def makeMove (ops : BlockOps) (pool : PoolLookup) (ledger : Ledger) : Move → Option Ledger
  | .disconnect pindex => if ops.readable pindex then ops.disconnectBlock ledger pindex else none
  | .connect pindex => if ops.readable pindex then ops.connectBlock pool ledger pindex else none

/-- The two loops over blocks.  The first failure ends them with what was done so far. -/
def makeMoves (ops : BlockOps) (pool : PoolLookup) : List Move → Ledger → Bool × Ledger
  | [], ledger => (true, ledger)
  | move :: rest, ledger =>
    match makeMove ops pool ledger move with
    | none => (false, ledger)
    | some next => makeMoves ops pool rest next

def vDisconnect (pfork pindexBest : CBlockIndex) : List CBlockIndex := above pfork pindexBest

def vConnect (pfork pindexNew : CBlockIndex) : List CBlockIndex := (above pfork pindexNew).reverse

def moves (pfork pindexBest pindexNew : CBlockIndex) : List Move :=
  (vDisconnect pfork pindexBest).map .disconnect ++ (vConnect pfork pindexNew).map .connect

/-- Transactions of disconnected blocks return to the pool unless they could not have
been pooled or lie below the last checkpoint. -/
def resurrectable (env : Env) (pindex : CBlockIndex) : List CTransaction :=
  (blockOf pindex).vtx.filter fun tx =>
    !(isCoinBase tx || isCoinStake tx) && decide (getTotalBlocksEstimate env < nHeight pindex)

/-- Every transaction is pushed to the front, blocks and transactions newest first. -/
def vResurrect (env : Env) (disconnected : List CBlockIndex) : List CTransaction :=
  disconnected.reverse.flatMap (resurrectable env)

def vDelete (connected : List CBlockIndex) : List CTransaction :=
  connected.flatMap fun pindex => (blockOf pindex).vtx

def resurrect (env : Env) (tip : ChainTip) (pool : CTxMemPool) (txs : List CTransaction) :
    CTxMemPool :=
  txs.foldl (fun pool tx => (accept env tip pool tx false).2) pool

def removeOne (env : Env) (pool : CTxMemPool) (tx : CTransaction) : Except Fault CTxMemPool :=
  remove env false (removeFuel pool) (.own tx) pool

def removeWithConflicts (env : Env) (pool : CTxMemPool) (tx : CTransaction) :
    Except Fault CTxMemPool := do
  let rest ← removeOne env pool tx
  removeConflicts env rest tx

def chainTip (node : ChainState) : ChainTip :=
  ⟨node.ledger.txdb, node.pindexBest, node.ledger.nBestHeight⟩

/-- The part of `Reorganize` after the blocks were moved and the transaction committed. -/
def finishReorganize (env : Env) (node : ChainState) (pfork pindexNew : CBlockIndex)
    (ledger : Ledger) : Except Fault ChainState := do
  let gone := vDisconnect pfork node.pindexBest
  let added := vConnect pfork pindexNew
  let settled := { node with
    ledger := { ledger with
      txdb := txnCommit (writeHashBestChain ledger.txdb (getBlockHash pindexNew))
      pnext := relink (unlink ledger.pnext gone) added } }
  let revived := resurrect env (chainTip settled) node.mempool (vResurrect env gone)
  let pool ← (vDelete added).foldlM (removeWithConflicts env) revived
  pure { settled with mempool := pool }

def reorganize (env : Env) (ops : BlockOps) (node : ChainState) (pindexNew : CBlockIndex) :
    Except Fault (Bool × ChainState) :=
  match findFork node.pindexBest pindexNew with
  | none => .ok (false, node)
  | some pfork =>
    match makeMoves ops (lookup node.mempool) (moves pfork node.pindexBest pindexNew)
        node.ledger with
    | (false, ledger) => .ok (false, { node with ledger := ledger })
    | (true, ledger) =>
      if ops.commits pindexNew then
        (finishReorganize env node pfork pindexNew ledger).map fun next => (true, next)
      else .ok (false, aborted { node with ledger := ledger })

/-! ## SetBestChain -/

def finishInner (env : Env) (node : ChainState) (pindexNew : CBlockIndex) (ledger : Ledger) :
    Except Fault ChainState := do
  let pool ← (blockOf pindexNew).vtx.foldlM (removeOne env) node.mempool
  pure { node with
    ledger := { ledger with
      txdb := txnCommit (writeHashBestChain ledger.txdb (getHash env (blockOf pindexNew)))
      pnext := relink ledger.pnext [pindexNew] }
    mempool := pool }

def setBestChainInner (env : Env) (ops : BlockOps) (node : ChainState) (pindexNew : CBlockIndex) :
    Except Fault (Bool × ChainState) :=
  match ops.connectBlock (lookup node.mempool) node.ledger pindexNew with
  | none => .ok (false, invalidChainFound (aborted node) pindexNew)
  | some ledger =>
    if ops.commits pindexNew then
      (finishInner env node pindexNew ledger).map fun next => (true, next)
    else .ok (false, aborted { node with ledger := ledger })

/-- `pindexIntermediate` and `vpindexSecondary`: the lowest block of the new branch with
more trust than the old tip, and the blocks above it, newest first. -/
def postpone (bestTrust : Nat) : CBlockIndex → CBlockIndex × List CBlockIndex
  | .root record => (.root record, [])
  | .grow p record =>
    if bestTrust < nChainTrust p then
      ((postpone bestTrust p).1, .grow p record :: (postpone bestTrust p).2)
    else (.grow p record, [])

def connectSecondary (env : Env) (ops : BlockOps) : List CBlockIndex → ChainState →
    Except Fault ChainState
  | [], node => .ok node
  | pindex :: rest, node =>
    if ops.readable pindex then
      match setBestChainInner env ops (begun node) pindex with
      | .error fault => .error fault
      | .ok (false, failed) => .ok failed
      | .ok (true, next) => connectSecondary env ops rest next
    else .ok node

/-- The tail of `SetBestChain`. -/
def newBest (env : Env) (pindexNew : CBlockIndex) (node : ChainState) : ChainState :=
  { node with
    ledger := { node.ledger with nBestHeight := nHeight pindexNew }
    hashBestChain := getHash env (blockOf pindexNew)
    pindexBest := pindexNew
    nBestChainTrust := nChainTrust pindexNew }

def setBestChain (env : Env) (ops : BlockOps) (node : ChainState) (pindexNew : CBlockIndex) :
    Except Fault (Bool × ChainState) :=
  if (blockOf pindexNew).hashPrevBlock = node.hashBestChain then
    match setBestChainInner env ops (begun node) pindexNew with
    | .ok (true, next) => .ok (true, newBest env pindexNew next)
    | other => other
  else
    match reorganize env ops (begun node) (postpone (nChainTrust node.pindexBest) pindexNew).1 with
    | .error fault => .error fault
    | .ok (false, failed) => .ok (false, invalidChainFound (aborted failed) pindexNew)
    | .ok (true, next) =>
      (connectSecondary env ops (postpone (nChainTrust node.pindexBest) pindexNew).2.reverse
        next).map fun last => (true, newBest env pindexNew last)

/-! ## AddToBlockIndex -/

structure NewBlock where
  nFile : UInt32
  nBlockPos : UInt32
  block : CBlock

/-- The index entry of a block; its parent is looked up by hash. -/
def newIndex (env : Env) (node : ChainState) (new : NewBlock) : CBlockIndex :=
  let record : BlockRecord :=
    ⟨getHash env new.block, new.nFile, new.nBlockPos, new.block⟩
  match node.mapBlockIndex.lookup new.block.hashPrevBlock with
  | some parent => .grow parent record
  | none => .root record

/-- A fresh entry has no successor and no supply. -/
def insertIndex (node : ChainState) (pindexNew : CBlockIndex) : ChainState :=
  let ledger := { node.ledger with
    pnext := Function.update node.ledger.pnext pindexNew none
    nMint := Function.update node.ledger.nMint pindexNew 0
    nMoneySupply := Function.update node.ledger.nMoneySupply pindexNew 0 }
  { node with
    ledger := ledger
    mapBlockIndex := node.mapBlockIndex.insert (getBlockHash pindexNew) pindexNew }

def writeIndex (node : ChainState) (pindexNew : CBlockIndex) : ChainState :=
  withTxdb node (txnCommit (writeBlockIndex (txnBegin node.ledger.txdb)
    (diskBlockIndex node.ledger pindexNew)))

def addToBlockIndex (env : Env) (ops : BlockOps) (node : ChainState) (new : NewBlock) :
    Except Fault (Bool × ChainState) :=
  let pindexNew := newIndex env node new
  if (node.mapBlockIndex.lookup (getHash env new.block)).isSome then .ok (false, node)
  else if !ops.checkStakeModifier pindexNew then .ok (false, node)
  else if !ops.commitsIndex pindexNew then .ok (false, insertIndex node pindexNew)
  else
    let indexed := writeIndex (insertIndex node pindexNew) pindexNew
    if indexed.nBestChainTrust < nChainTrust pindexNew then setBestChain env ops indexed pindexNew
    else .ok (true, indexed)

/-! ## The start of a run -/

/-- What `AddToBlockIndex` leaves behind for the genesis block, whose transactions are
not connected. -/
def genesisState (genesis : BlockRecord) (wallets : List CWallet) : ChainState :=
  let ledger : Ledger := ⟨⟨fun _ => none, none⟩, wallets, fun _ => none, fun _ => 0, fun _ => 0, 0⟩
  let node : ChainState := ⟨ledger, emptyMemPool, ∅, 0, .root genesis, 0, 0⟩
  let indexed := writeIndex (insertIndex node (.root genesis)) (.root genesis)
  { withTxdb indexed (txnCommit (writeHashBestChain (txnBegin indexed.ledger.txdb)
      genesis.phashBlock)) with
    hashBestChain := genesis.phashBlock
    nBestChainTrust := nChainTrust (.root genesis) }

def toyOps (env : Env) : BlockOps := coreOps env (fun _ => 1432700000) (fun _ => true)

end SynergyChain.BestChain
