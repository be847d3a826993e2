import SynergyFormal.Ledger.Inputs
import SynergyFormal.Ledger.Reward
import SynergyFormal.Ledger.Wallet

/-!
# Connecting and disconnecting a block

`CBlock::ConnectBlock` and `CBlock::DisconnectBlock`.  The ledger record holds what
they read and write: the database, the registered wallets, the mutable fields of
the block index entries and `nBestHeight`.

`connectBlock_view` and `disconnectBlock_view` are the refinement statements: on the
transaction index a block is connected by extending the index with its
transactions in order, and disconnected by retracting them in reverse order.

A failed call leaves the ledger alone except for queued database writes, which every
caller drops by aborting its transaction, so failure is `none`.  The database itself
does not fail.  All callers pass `fJustCheck = false`.
-/

set_option autoImplicit false

namespace SynergyLedger.ConnectBlock

open SynergyLib SynergyData
open Option Wire SynergyLib.Tree OutputLedger Transaction CheckTransaction Block TxDB Inputs Reward
  Wallet

structure Ledger where
  txdb : CTxDB
  wallets : List CWallet
  pnext : CBlockIndex → Option CBlockIndex
  nMint : CBlockIndex → Int64
  nMoneySupply : CBlockIndex → Int64
  nBestHeight : Int

/-! ## Positions of transactions -/

def txPositions (nFile nBlockPos : UInt32) : UInt32 → List CTransaction →
    List (CTransaction × CDiskTxPos)
  | _, [] => []
  | nTxPos, tx :: rest =>
    (tx, ⟨nFile, nBlockPos, nTxPos⟩) ::
      txPositions nFile nBlockPos (nTxPos + UInt32.ofNat (serializeSize tx)) rest

/-- The 80 header bytes and the transaction count precede the first transaction. -/
def firstTxPos (pindex : CBlockIndex) (b : CBlock) : UInt32 :=
  (value pindex).nBlockPos + UInt32.ofNat (80 + (compactSize b.vtx.length).length)

def blockTxs (pindex : CBlockIndex) (b : CBlock) : List (CTransaction × CDiskTxPos) :=
  txPositions (value pindex).nFile (value pindex).nBlockPos (firstTxPos pindex b) b.vtx

variable {txs : List CTransaction} {ledger result : Ledger} {pindex : CBlockIndex}
  {tx : CTransaction} {pool : PoolLookup} {env : Env} {b : CBlock} {adjustedTime : Int}

@[simp] theorem txPositions_fst {nFile nBlockPos : UInt32} :
    ∀ nTxPos : UInt32, (txPositions nFile nBlockPos nTxPos txs).map Prod.fst = txs := by
  induction txs with
  | nil => intro nTxPos; rfl
  | cons tx txs ih =>
    intro nTxPos
    simp [txPositions, ih]

theorem blockTxs_fst (pindex : CBlockIndex) (b : CBlock) :
    (blockTxs pindex b).map Prod.fst = b.vtx := txPositions_fst _

theorem txPositions_file {nFile nBlockPos : UInt32} :
    ∀ nTxPos : UInt32, ∀ x ∈ txPositions nFile nBlockPos nTxPos txs,
      x.2.nFile = nFile ∧ x.2.nBlockPos = nBlockPos := by
  induction txs with
  | nil => intro nTxPos x member; simp [txPositions] at member
  | cons tx txs ih =>
    intro nTxPos x member
    rcases List.mem_cons.mp member with rfl | member
    · exact ⟨rfl, rfl⟩
    · exact ih _ x member

/-! ## ConnectBlock -/

structure BlockPass where
  mapQueuedChanges : Queue
  nFees : Int64
  nValueIn : Int64
  nValueOut : Int64
  nStakeReward : Int64
  nSigOps : Nat
  nTxPos : UInt32

/-- A transaction with this hash is already indexed and not completely spent. -/
def overwritesUnspent (txindexOld : Option CTxIndex) : Bool :=
  match txindexOld with
  | none => false
  | some old => old.slots.any CDiskTxPos.isNull

def thisPos (pindex : CBlockIndex) (pass : BlockPass) : CDiskTxPos :=
  ⟨(value pindex).nFile, (value pindex).nBlockPos, pass.nTxPos⟩

/-- The bookkeeping common to all transactions of a block. -/
def enterTx (env : Env) (pindex : CBlockIndex) (pass : BlockPass) (tx : CTransaction)
    (queue : Queue) (nSigOps : Nat) : BlockPass :=
  { pass with
    mapQueuedChanges :=
      queue.insert (getTxHash env tx) (newTxIndex (thisPos pindex pass) tx.vout.length)
    nSigOps := nSigOps
    nTxPos := pass.nTxPos + UInt32.ofNat (serializeSize tx) }

def connectCoinbase (env : Env) (pindex : CBlockIndex) (pass : BlockPass) (tx : CTransaction)
    (nSigOps : Nat) : Option BlockPass :=
  (getValueOut tx).map fun nTxValueOut =>
    { enterTx env pindex pass tx pass.mapQueuedChanges nSigOps with
      nValueOut := pass.nValueOut + Int64.ofInt nTxValueOut }

/-- The running totals after an ordinary transaction or a coinstake. -/
def addTotals (pass : BlockPass) (tx : CTransaction) (nTxValueIn nTxValueOut : Int64) :
    BlockPass :=
  { pass with
    nValueIn := pass.nValueIn + nTxValueIn
    nValueOut := pass.nValueOut + nTxValueOut
    nFees := if isCoinStake tx then pass.nFees else pass.nFees + (nTxValueIn - nTxValueOut)
    nStakeReward := if isCoinStake tx then nTxValueOut - nTxValueIn else pass.nStakeReward }

def connectOrdinary (env : Env) (pool : PoolLookup) (ledger : Ledger) (pindex : CBlockIndex)
    (pass : BlockPass) (tx : CTransaction) (nSigOps : Nat) : Option BlockPass := do
  let mapInputs ← fetchInputs env ledger.txdb pool pass.mapQueuedChanges true false tx
  let nP2SH ← getP2SHSigOpCount tx mapInputs
  let nTxValueIn ← getValueIn tx mapInputs
  let nTxValueOut ← getValueOut tx
  if maxBlockSigOps < nSigOps + nP2SH then none
  else
    let queue ← connectInputs env tx mapInputs pass.mapQueuedChanges (thisPos pindex pass) pindex
      ledger.nBestHeight true false
    some (addTotals (enterTx env pindex pass tx queue (nSigOps + nP2SH)) tx nTxValueIn
      (Int64.ofInt nTxValueOut))

def connectTx (env : Env) (pool : PoolLookup) (ledger : Ledger) (pindex : CBlockIndex)
    (pass : BlockPass) (tx : CTransaction) : Option BlockPass :=
  if overwritesUnspent (readTxIndex ledger.txdb (getTxHash env tx)) then none
  else if maxBlockSigOps < pass.nSigOps + getLegacySigOpCount tx then none
  else if isCoinBase tx then
    connectCoinbase env pindex pass tx (pass.nSigOps + getLegacySigOpCount tx)
  else connectOrdinary env pool ledger pindex pass tx (pass.nSigOps + getLegacySigOpCount tx)

def startPass (pindex : CBlockIndex) (b : CBlock) : BlockPass :=
  ⟨∅, 0, 0, 0, 0, 0, firstTxPos pindex b⟩

def checkWorkReward (pindex : CBlockIndex) (b : CBlock) (pass : BlockPass) : Bool :=
  match b.vtx with
  | [] => false
  | first :: _ =>
    match getValueOut first with
    | none => false
    | some nValueOut =>
      decide (nValueOut ≤ (getProofOfWorkReward (nHeight pindex) pass.nFees).toInt)

/-- `nCalculatedStakeReward`; the coinstake is `vtx[1]` and the parent exists. -/
def calculatedStakeReward (env : Env) (ledger : Ledger) (pindex : CBlockIndex) (b : CBlock) :
    Option Int64 :=
  match b.vtx[1]?, pprev pindex with
  | some stake, some parent =>
    (getCoinAge env ledger.txdb stake).map fun nCoinAge =>
      getProofOfStakeReward env (Int64.ofNat nCoinAge) (stakeAddress env b) stake.nTime.toNat
        parent (ledger.nMoneySupply parent)
  | _, _ => none

def checkStakeReward (env : Env) (ledger : Ledger) (pindex : CBlockIndex) (b : CBlock)
    (pass : BlockPass) : Bool :=
  match calculatedStakeReward env ledger pindex b with
  | none => false
  | some reward => decide (pass.nStakeReward.toInt ≤ reward.toInt)

def checkReward (env : Env) (ledger : Ledger) (pindex : CBlockIndex) (b : CBlock)
    (pass : BlockPass) : Bool :=
  if isProofOfStake b then checkStakeReward env ledger pindex b pass
  else checkWorkReward pindex b pass

/-- `CDiskBlockIndex(pindex)`. -/
def diskBlockIndex (ledger : Ledger) (pindex : CBlockIndex) : CDiskBlockIndex where
  record := value pindex
  hashPrev := ((pprev pindex).map getBlockHash).getD 0
  hashNext := ((ledger.pnext pindex).map getBlockHash).getD 0
  nHeight := nHeight pindex
  nMint := ledger.nMint pindex
  nMoneySupply := ledger.nMoneySupply pindex

/-- Rewrite the parent's record with another `hashNext`, leaving memory alone. -/
def writePrevNext (ledger : Ledger) (txdb : CTxDB) (pindex : CBlockIndex) (hashNext : Uint256) :
    CTxDB :=
  match pprev pindex with
  | none => txdb
  | some parent => writeBlockIndex txdb { diskBlockIndex ledger parent with hashNext := hashNext }

def parentSupply (ledger : Ledger) (pindex : CBlockIndex) : Int64 :=
  match pprev pindex with
  | none => 0
  | some parent => ledger.nMoneySupply parent

/-- The fields `nMint` and `nMoneySupply` of the connected entry. -/
def recordSupply (ledger : Ledger) (pindex : CBlockIndex) (pass : BlockPass) : Ledger :=
  { ledger with
    nMint := Function.update ledger.nMint pindex
      (pass.nValueOut - pass.nValueIn + pass.nFees)
    nMoneySupply := Function.update ledger.nMoneySupply pindex
      (parentSupply ledger pindex + pass.nValueOut - pass.nValueIn) }

def finishConnect (env : Env) (ledger : Ledger) (pindex : CBlockIndex) (b : CBlock)
    (pass : BlockPass) : Ledger :=
  let recorded := recordSupply ledger pindex pass
  let indexed := writeBlockIndex ledger.txdb (diskBlockIndex recorded pindex)
  let queued := writeQueue indexed pass.mapQueuedChanges
  { recorded with
    txdb := writePrevNext recorded queued pindex (getBlockHash pindex)
    wallets := b.vtx.foldl (syncConnect env (getHash env b)) ledger.wallets }

def connectBlock (env : Env) (adjustedTime : Int) (pool : PoolLookup) (ledger : Ledger)
    (b : CBlock) (pindex : CBlockIndex) : Option Ledger :=
  if checkBlock env adjustedTime b true true false then
    match b.vtx.foldlM (connectTx env pool ledger pindex) (startPass pindex b) with
    | none => none
    | some pass =>
      if checkReward env ledger pindex b pass then
        some (finishConnect env ledger pindex b pass)
      else none
  else none

/-! ## DisconnectBlock -/

def disconnectBlock (env : Env) (ledger : Ledger) (b : CBlock) (pindex : CBlockIndex) :
    Option Ledger :=
  (b.vtx.reverse.foldlM (disconnectInputs env) ledger.txdb).map fun txdb =>
    { ledger with
      txdb := writePrevNext ledger txdb pindex 0
      wallets := b.vtx.foldl syncDisconnect ledger.wallets }

/-! ## What the two calls do to the transaction index -/

abbrev extendTx (env : Env) := extend (shape env) nullPos CDiskTxPos.isNull

abbrev retractTx (env : Env) := retract (P := CDiskTxPos) (shape env) nullPos

@[simp] theorem txView_writePrevNext {txdb : CTxDB} {hashNext : Uint256} :
    txView (writePrevNext ledger txdb pindex hashNext) = txView txdb := by
  unfold writePrevNext
  split <;> simp

/-- What one pass of the transaction loop establishes for an ordinary transaction. -/
structure OrdinaryPass (env : Env) (pool : PoolLookup) (ledger : Ledger) (pindex : CBlockIndex)
    (tx : CTransaction) (pass next : BlockPass) (mapInputs : MapPrevTx) (queue : Queue)
    (nTxValueIn : Int64) (nTxValueOut : Int) : Prop where
  fetched : Fetched env pool (overlay pass.mapQueuedChanges (txView ledger.txdb)) mapInputs
  connected : Connected tx mapInputs (thisPos pindex pass)
    (overlay pass.mapQueuedChanges (txView ledger.txdb)) (overlay queue (txView ledger.txdb))
  valueIn : getValueIn tx mapInputs = some nTxValueIn
  valueOut : getValueOut tx = some nTxValueOut
  result : ∃ nSigOps, next = addTotals (enterTx env pindex pass tx queue nSigOps) tx nTxValueIn
    (Int64.ofInt nTxValueOut)

variable {pass next : BlockPass}

theorem connectOrdinary_spec {nSigOps : Nat} (ordinary : isCoinBase tx = false)
    (success : connectOrdinary env pool ledger pindex pass tx nSigOps = some next) :
    ∃ mapInputs queue nTxValueIn nTxValueOut,
      OrdinaryPass env pool ledger pindex tx pass next mapInputs queue nTxValueIn nTxValueOut := by
  simp only [connectOrdinary, bind_eq_bind, bind_eq_some_iff] at success
  obtain ⟨mapInputs, fetch, nP2SH, _, nTxValueIn, valueIn, nTxValueOut, valueOut, rest⟩ := success
  split_ifs at rest
  obtain ⟨queue, connect, result⟩ := bind_eq_some_iff.mp rest
  have fetched := fetchInputs_spec rfl ordinary fetch
  refine ⟨mapInputs, queue, nTxValueIn, nTxValueOut, fetched, ?_, valueIn, valueOut,
    nSigOps + nP2SH, (some.inj result).symm⟩
  exact connectInputs_spec rfl env pool (txView ledger.txdb) tx mapInputs pass.mapQueuedChanges
    queue (thisPos pindex pass) pindex ledger.nBestHeight ordinary fetched connect

theorem connectTx_cases (success : connectTx env pool ledger pindex pass tx = some next) :
    (isCoinBase tx = true ∧ ∃ nTxValueOut nSigOps, getValueOut tx = some nTxValueOut ∧
      next = { enterTx env pindex pass tx pass.mapQueuedChanges nSigOps with
        nValueOut := pass.nValueOut + Int64.ofInt nTxValueOut }) ∨
    (isCoinBase tx = false ∧ ∃ mapInputs queue nTxValueIn nTxValueOut,
      OrdinaryPass env pool ledger pindex tx pass next mapInputs queue nTxValueIn nTxValueOut) := by
  unfold connectTx at success
  split_ifs at success with overwrite sigOps base
  · obtain ⟨nTxValueOut, valueOut, result⟩ := map_eq_some_iff.mp success
    exact Or.inl ⟨base, nTxValueOut, _, valueOut, result.symm⟩
  · have ordinary : isCoinBase tx = false := by simpa using base
    exact Or.inr ⟨ordinary, connectOrdinary_spec ordinary success⟩

theorem overlay_enterTx (env : Env) (base : TxIndexMap) (pindex : CBlockIndex) (pass : BlockPass)
    (tx : CTransaction) (queue : Queue) (nSigOps : Nat) :
    overlay (enterTx env pindex pass tx queue nSigOps).mapQueuedChanges base =
      Function.update (overlay queue base) (getTxHash env tx)
        (some (newEntry (shape env) nullPos tx (thisPos pindex pass))) :=
  overlay_insert

theorem connectTx_extend (success : connectTx env pool ledger pindex pass tx = some next) :
    extendTx env (overlay pass.mapQueuedChanges (txView ledger.txdb))
        (tx, thisPos pindex pass) = some (overlay next.mapQueuedChanges (txView ledger.txdb)) ∧
      next.nTxPos = pass.nTxPos + UInt32.ofNat (serializeSize tx) := by
  rcases connectTx_cases success with
    ⟨base, nTxValueOut, nSigOps, _, rfl⟩ | ⟨_, mapInputs, queue, nTxValueIn, nTxValueOut, one⟩
  · refine ⟨?_, rfl⟩
    have none : (shape env).spends tx = [] := by simp [shape, spends, base]
    simp only [extend, none, List.foldlM_nil, Option.pure_def, map_some]
    exact congrArg some (overlay_enterTx env _ pindex pass tx pass.mapQueuedChanges nSigOps).symm
  · obtain ⟨nSigOps, rfl⟩ := one.result
    refine ⟨?_, rfl⟩
    have spent : ((shape env).spends tx).foldlM (spend CDiskTxPos.isNull (thisPos pindex pass))
        (overlay pass.mapQueuedChanges (txView ledger.txdb)) =
          some (overlay queue (txView ledger.txdb)) := one.connected.spent
    simp only [extend, spent, map_some]
    exact congrArg some (overlay_enterTx env _ pindex pass tx queue nSigOps).symm

theorem foldlM_connectTx_extend :
    ∀ pass final : BlockPass, txs.foldlM (connectTx env pool ledger pindex) pass = some final →
      (txPositions (value pindex).nFile (value pindex).nBlockPos pass.nTxPos txs).foldlM
          (extendTx env) (overlay pass.mapQueuedChanges (txView ledger.txdb)) =
        some (overlay final.mapQueuedChanges (txView ledger.txdb)) := by
  induction txs with
  | nil =>
    intro pass final success
    have same : pass = final := by simpa using success
    rw [same]
    rfl
  | cons tx txs ih =>
    intro pass final success
    simp only [List.foldlM_cons, bind_eq_bind, bind_eq_some_iff] at success
    obtain ⟨next, first, rest⟩ := success
    obtain ⟨step, position⟩ := connectTx_extend first
    have tail := ih next final rest
    rw [position] at tail
    simp only [txPositions, List.foldlM_cons, bind_eq_bind]
    rw [show extendTx env (overlay pass.mapQueuedChanges (txView ledger.txdb))
      (tx, ⟨(value pindex).nFile, (value pindex).nBlockPos, pass.nTxPos⟩) = _ from step]
    exact tail

theorem connectBlock_cases
    (success : connectBlock env adjustedTime pool ledger b pindex = some result) :
    CheckedBlock env b ∧ ∃ pass,
      b.vtx.foldlM (connectTx env pool ledger pindex) (startPass pindex b) = some pass ∧
      checkReward env ledger pindex b pass = true ∧
      result = finishConnect env ledger pindex b pass := by
  unfold connectBlock at success
  split_ifs at success with checked
  split at success
  · cases success
  rename_i pass run
  split_ifs at success with reward
  exact ⟨checkBlock_spec checked, pass, run, reward, (some.inj success).symm⟩

theorem txView_finishConnect : txView (finishConnect env ledger pindex b pass).txdb =
      overlay pass.mapQueuedChanges (txView ledger.txdb) := by
  simp [finishConnect, txView_writeQueue]

theorem connectBlock_view
    (success : connectBlock env adjustedTime pool ledger b pindex = some result) :
    (blockTxs pindex b).foldlM (extendTx env) (txView ledger.txdb) = some (txView result.txdb) := by
  obtain ⟨_, pass, run, _, rfl⟩ := connectBlock_cases success
  rw [txView_finishConnect]
  have pointwise := foldlM_connectTx_extend (startPass pindex b) pass run
  rw [show (startPass pindex b).mapQueuedChanges = ∅ from rfl, overlay_empty] at pointwise
  exact pointwise

theorem foldlM_disconnectInputs_view :
    ∀ txdb : CTxDB, (txs.foldlM (disconnectInputs env) txdb).map txView =
      txs.foldlM (retractTx env) (txView txdb) := by
  induction txs with
  | nil => intro txdb; rfl
  | cons tx txs ih =>
    intro txdb
    have first : (disconnectInputs env txdb tx).map txView = retractTx env (txView txdb) tx :=
      disconnectInputs_view
    simp only [List.foldlM_cons, bind_eq_bind, ← first]
    cases disconnectInputs env txdb tx with
    | none => rfl
    | some next => exact ih next

theorem disconnectBlock_view (env : Env) (ledger : Ledger) (b : CBlock) (pindex : CBlockIndex) :
    (disconnectBlock env ledger b pindex).map (fun result => txView result.txdb) =
      b.vtx.reverse.foldlM (retractTx env) (txView ledger.txdb) := by
  rw [← foldlM_disconnectInputs_view, disconnectBlock, Option.map_map]
  congr 1
  funext txdb
  simp

/-! ## A small environment

Concrete blocks in later modules use it: the hash is a polynomial of the bytes and
every signature is valid. -/

def toyHash (bytes : Bytes) : Uint256 :=
  BitVec.ofNat 256 (bytes.foldl (fun acc byte => (acc * 257 + byte.toNat + 1) % (2 ^ 61 - 1)) 1)

def toyEnv (files : List (CTransaction × CDiskTxPos)) : Env where
  hash := toyHash
  hash9 := toyHash
  fTestNet := true
  readTx := fun pos => (files.find? fun x => x.2 == pos).map Prod.fst
  readBlockTime := fun _ _ => none
  verifySignature := fun _ _ _ => true
  checkBlockSignature := fun _ => true
  extractDestination := fun _ => none
  isStandard := fun _ => true
  areInputsStandard := fun _ _ => true
  findStealthTransactions := fun _ owned => owned
  nMinimumInputValue := 0

def toyTx (prevouts : List COutPoint) (vout : List CTxOut) : CTransaction where
  nVersion := 1
  nTime := 1432700000
  vin := prevouts.map fun prevout => ⟨prevout, [0x51, 0x51], 0xffffffff⟩
  vout := vout
  nLockTime := 0
  strTxComment := []
  nProdTypeID := 0

def pay (nValue : Int64) : CTxOut := ⟨nValue, [0x51]⟩

def toyBlock (hashPrevBlock : Uint256) (vtx : List CTransaction) : CBlock where
  nVersion := 6
  hashPrevBlock := hashPrevBlock
  hashMerkleRoot := merkleRoot (toyEnv []) vtx.length (vtx.map (getTxHash (toyEnv [])))
  nTime := 1432700000
  nBits := 0x1f003fff
  nNonce := 0
  vtx := vtx
  vchBlockSig := []

def emptyLedger : Ledger where
  txdb := ⟨fun _ => none, none⟩
  wallets := []
  pnext := fun _ => none
  nMint := fun _ => 0
  nMoneySupply := fun _ => 0
  nBestHeight := 0

def emptyPool : PoolLookup := fun _ => none

def toyCoinbase (height : Nat) (nValue : Int64) : CTransaction :=
  { toyTx [] [pay nValue] with
    vin := [⟨⟨0, 0xffffffff⟩, Script.pushInt64 height ++ [0x51], 0xffffffff⟩] }

def toyGenesis : BlockRecord :=
  ⟨getHash (toyEnv []) (toyBlock 0 []), 1, 8, toyBlock 0 []⟩

/-- A block in file `nFile`. -/
def toyChildIn (nFile : UInt32) (parent : CBlockIndex) (vtx : List CTransaction) : CBlockIndex :=
  let b := toyBlock (getBlockHash parent) vtx
  .grow parent ⟨getHash (toyEnv []) b, nFile, UInt32.ofNat (1000 * (nHeight parent + 1)), b⟩

def toyChild (parent : CBlockIndex) (vtx : List CTransaction) : CBlockIndex :=
  toyChildIn 1 parent vtx

end SynergyLedger.ConnectBlock
