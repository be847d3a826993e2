import SynergyFormal.Ledger.Inputs
import Mathlib.Data.List.AList

/-!
# The memory pool

`CTxMemPool`: the pooled transactions by hash, and for every outpoint they spend a
pointer to the spender.  A pointer is the address of a node of `mapTx`; nodes are
numbered in the order of their creation and a number is never used again, so that
reading an erased node is a fault the model can exhibit.

`remove` follows the pointers and erases the nodes it was called on while callers
still hold references to theirs.  It recurses on the spend graph, which nothing in
the types keeps free of cycles; the model spends fuel and reports when it is gone.

`nTransactionsUpdated` is left out: only the miner reads it.
-/

set_option autoImplicit false

namespace SynergyPool.MemPool

open SynergyData SynergyLedger
open SynergyLib.BatchStore Transaction CheckTransaction Block TxDB Inputs

structure Node where
  ptx : Nat
  tx : CTransaction

structure CInPoint where
  ptx : Nat
  n : Nat
  deriving DecidableEq

structure CTxMemPool where
  mapTx : AList (fun _ : Uint256 => Node)
  mapNextTx : AList (fun _ : COutPoint => CInPoint)
  nextNode : Nat

def emptyMemPool : CTxMemPool := ⟨∅, ∅, 0⟩

inductive Fault where
  | dangling
  | nonterminating
  deriving DecidableEq

/-- `mempool.lookup`. -/
def lookup (pool : CTxMemPool) : PoolLookup := fun hash =>
  (pool.mapTx.lookup hash).map Node.tx

/-! ## Accepting a transaction -/

/-- What `accept` reads besides the pool. -/
structure ChainTip where
  txdb : CTxDB
  pindexBest : CBlockIndex
  nBestHeight : Int

inductive AcceptResult where
  | accepted
  | rejected (fMissingInputs : Bool)
  deriving DecidableEq

/-- An existing node is overwritten in place and keeps its address. -/
def nodeAddress (pool : CTxMemPool) (hash : Uint256) : Nat :=
  match pool.mapTx.lookup hash with
  | some node => node.ptx
  | none => pool.nextNode

def linkInputs (ptx : Nat) (mapNextTx : AList (fun _ : COutPoint => CInPoint))
    (vin : List CTxIn) : AList (fun _ : COutPoint => CInPoint) :=
  vin.zipIdx.foldl (fun links x => links.insert x.1.prevout ⟨ptx, x.2⟩) mapNextTx

def addUnchecked (pool : CTxMemPool) (hash : Uint256) (tx : CTransaction) : CTxMemPool where
  mapTx := pool.mapTx.insert hash ⟨nodeAddress pool hash, tx⟩
  mapNextTx := linkInputs (nodeAddress pool hash) pool.mapNextTx tx.vin
  nextNode := pool.nextNode + 1

def hasConflict (pool : CTxMemPool) (tx : CTransaction) : Bool :=
  tx.vin.any fun txin => (pool.mapNextTx.lookup txin.prevout).isSome

/-- Inputs are missing, as opposed to invalid, when one of them was not found at all. -/
def missingInputs (env : Env) (txdb : CTxDB) (pool : PoolLookup) (tx : CTransaction) : Bool :=
  (tx.vin.foldlM (fetchInput env txdb pool ∅ false false) ∅).isNone

/-- The checks made with `fCheckInputs`.  The rate limiter for free transactions is
left out: it starts below `MIN_RELAY_TX_FEE`, which every minimum fee reaches. -/
def checkPoolInputs (env : Env) (tip : ChainTip) (pool : CTxMemPool) (tx : CTransaction) :
    AcceptResult :=
  match fetchInputs env tip.txdb (lookup pool) ∅ false false tx with
  | none => .rejected (missingInputs env tip.txdb (lookup pool) tx)
  | some mapInputs =>
    if !env.areInputsStandard tx (getOutputFor mapInputs) && !env.fTestNet then .rejected false
    else
      match getValueIn tx mapInputs, getValueOut tx with
      | some nValueIn, some nValueOut =>
        if (nValueIn - Int64.ofInt nValueOut).toInt <
            getMinFee tx 1000 .relay (UInt32.ofNat (serializeSize tx)) then .rejected false
        else if (connectInputs env tx mapInputs ∅ memoryPos tip.pindexBest tip.nBestHeight
            false false).isSome then .accepted
        else .rejected false
      | _, _ => .rejected false

/-- Replacement of a pooled transaction is disabled in the source: any conflict
rejects. -/
def acceptable (env : Env) (tip : ChainTip) (pool : CTxMemPool) (tx : CTransaction)
    (fCheckInputs : Bool) : Bool :=
  checkTransaction tx && !isCoinBase tx && !isCoinStake tx &&
    (env.fTestNet || env.isStandard tx) &&
    !(pool.mapTx.lookup (getTxHash env tx)).isSome &&
    !(fCheckInputs && contains tip.txdb (.tx (getTxHash env tx))) &&
    !hasConflict pool tx

def accept (env : Env) (tip : ChainTip) (pool : CTxMemPool) (tx : CTransaction)
    (fCheckInputs : Bool) : AcceptResult × CTxMemPool :=
  if acceptable env tip pool tx fCheckInputs then
    match (if fCheckInputs then checkPoolInputs env tip pool tx else .accepted) with
    | .accepted => (.accepted, addUnchecked pool (getTxHash env tx) tx)
    | .rejected fMissingInputs => (.rejected fMissingInputs, pool)
  else (.rejected false, pool)

/-! ## Removing transactions -/

/-- The object a `const CTransaction&` refers to: the caller's own or a pool node. -/
inductive TxRef where
  | own (tx : CTransaction)
  | node (ptx : Nat)

def deref (pool : CTxMemPool) (ptx : Nat) : Option CTransaction :=
  (pool.mapTx.entries.find? fun entry => entry.2.ptx == ptx).map fun entry => entry.2.tx

def readRef (pool : CTxMemPool) : TxRef → Except Fault CTransaction
  | .own tx => .ok tx
  | .node ptx =>
    match deref pool ptx with
    | some tx => .ok tx
    | none => .error .dangling

def eraseTx (pool : CTxMemPool) (hash : Uint256) (vin : List CTxIn) : CTxMemPool :=
  { pool with
    mapTx := pool.mapTx.erase hash
    mapNextTx := vin.foldl (fun links txin => links.erase txin.prevout) pool.mapNextTx }

/-- One pass of the loop over the outputs; its condition reads the referenced object. -/
def removeSpender (remove : TxRef → CTxMemPool → Except Fault CTxMemPool) (hash : Uint256)
    (ref : TxRef) (pool : CTxMemPool) (i : Nat) : Except Fault CTxMemPool :=
  match readRef pool ref with
  | .error fault => .error fault
  | .ok _ =>
    match pool.mapNextTx.lookup ⟨hash, UInt32.ofNat i⟩ with
    | none => .ok pool
    | some inpoint => remove (.node inpoint.ptx) pool

def remove (env : Env) (fRecursive : Bool) : Nat → TxRef → CTxMemPool → Except Fault CTxMemPool
  | 0, _, _ => .error .nonterminating
  | fuel + 1, ref, pool =>
    match readRef pool ref with
    | .error fault => .error fault
    | .ok tx =>
      if (pool.mapTx.lookup (getTxHash env tx)).isSome then
        match (if fRecursive then
            (List.range tx.vout.length).foldlM
              (removeSpender (remove env true fuel) (getTxHash env tx) ref) pool
          else .ok pool) with
        | .error fault => .error fault
        | .ok rest =>
          match readRef rest ref with
          | .error fault => .error fault
          | .ok last => .ok (eraseTx rest (getTxHash env tx) last.vin)
      else .ok pool

/-- A chain of spenders without a cycle is no longer than the pool. -/
def removeFuel (pool : CTxMemPool) : Nat := pool.mapTx.keys.length + 1

def removeConflict (env : Env) (tx : CTransaction) (pool : CTxMemPool) (txin : CTxIn) :
    Except Fault CTxMemPool :=
  match pool.mapNextTx.lookup txin.prevout with
  | none => .ok pool
  | some inpoint =>
    match readRef pool (.node inpoint.ptx) with
    | .error fault => .error fault
    | .ok txConflict =>
      if operatorEq txConflict tx then .ok pool
      else remove env true (removeFuel pool) (.node inpoint.ptx) pool

def removeConflicts (env : Env) (pool : CTxMemPool) (tx : CTransaction) :
    Except Fault CTxMemPool :=
  tx.vin.foldlM (removeConflict env tx) pool

/-- `clear`; the node counter only grows. -/
def clear (pool : CTxMemPool) : CTxMemPool := ⟨∅, ∅, pool.nextNode⟩

/-! ## Calls -/

inductive PoolCall where
  | accept (tip : ChainTip) (tx : CTransaction) (fCheckInputs : Bool)
  | remove (tx : CTransaction) (fRecursive : Bool)
  | removeConflicts (tx : CTransaction)
  | clear

def call (env : Env) (pool : CTxMemPool) : PoolCall → Except Fault CTxMemPool
  | .accept tip tx fCheckInputs => .ok (accept env tip pool tx fCheckInputs).2
  | .remove tx fRecursive => remove env fRecursive (removeFuel pool) (.own tx) pool
  | .removeConflicts tx => removeConflicts env pool tx
  | .clear => .ok (clear pool)

def calls (env : Env) (pool : CTxMemPool) (script : List PoolCall) : Except Fault CTxMemPool :=
  script.foldlM (call env) pool

end SynergyPool.MemPool
