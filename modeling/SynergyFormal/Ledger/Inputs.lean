import SynergyFormal.Lib.Loop
import SynergyFormal.Ledger.TxDB

/-!
# Fetching and connecting the inputs of a transaction

`FetchInputs`, `ConnectInputs` and `DisconnectInputs` (`main.cpp`).  Connecting a
transaction of a block never touches the database: it edits entries of the queue
`mapTestPool`.  The specifications below state what it does to the index the block
sees, `overlay`: it spends the inputs one after another, exactly the `spend` of the
output ledger.  Disconnecting works on the database itself and is `release`.
-/

set_option autoImplicit false

namespace SynergyLedger.Inputs

open SynergyLib SynergyData
open Option Function Loop OutputLedger SynergyLib.Tree Script Transaction CheckTransaction Block
  TxDB

abbrev MapPrevTx := AList (fun _ : Uint256 => CTxIndex × CTransaction)

/-- `mempool.lookup`. -/
abbrev PoolLookup := Uint256 → Option CTransaction

def outpoint (o : COutPoint) : Uint256 × Nat := (o.hash, o.n.toNat)

def spends (tx : CTransaction) : List (Uint256 × Nat) :=
  if isCoinBase tx then [] else tx.vin.map fun txin => outpoint txin.prevout

/-- The ledger's view of a transaction. -/
def shape (env : Env) : Shape CTransaction Uint256 where
  txid := getTxHash env
  spends := spends
  outputs := fun tx => tx.vout.length

/-! ## FetchInputs -/

/-- `CDiskTxPos(1,1,1)` stands for "in the memory pool". -/
def memoryPos : CDiskTxPos := ⟨1, 1, 1⟩

def fetchIndex (txdb : CTxDB) (mapTestPool : Queue) (fBlock fMiner : Bool) (hash : Uint256) :
    Option CTxIndex :=
  match (if fBlock || fMiner then mapTestPool.lookup hash else none) with
  | some txindex => some txindex
  | none => readTxIndex txdb hash

def fetchPrev (env : Env) (pool : PoolLookup) (hash : Uint256) (txindex : CTxIndex) :
    Option CTransaction :=
  if txindex.pos = memoryPos then pool hash else env.readTx txindex.pos

def fetchInput (env : Env) (txdb : CTxDB) (pool : PoolLookup) (mapTestPool : Queue)
    (fBlock fMiner : Bool) (inputsRet : MapPrevTx) (txin : CTxIn) : Option MapPrevTx :=
  let hash := txin.prevout.hash
  match inputsRet.lookup hash with
  | some _ => some inputsRet
  | none =>
    match fetchIndex txdb mapTestPool fBlock fMiner hash with
    | some txindex =>
      (fetchPrev env pool hash txindex).map fun txPrev =>
        inputsRet.insert hash (txindex, txPrev)
    | none =>
      if fBlock || fMiner then none
      else (pool hash).map fun txPrev =>
        inputsRet.insert hash (newTxIndex nullPos txPrev.vout.length, txPrev)

def inputInRange (inputs : MapPrevTx) (txin : CTxIn) : Bool :=
  match inputs.lookup txin.prevout.hash with
  | none => false
  | some (txindex, txPrev) =>
    decide (txin.prevout.n.toNat < txPrev.vout.length) &&
      decide (txin.prevout.n.toNat < txindex.slots.length)

def fetchInputs (env : Env) (txdb : CTxDB) (pool : PoolLookup) (mapTestPool : Queue)
    (fBlock fMiner : Bool) (tx : CTransaction) : Option MapPrevTx :=
  if isCoinBase tx then some ∅
  else
    match tx.vin.foldlM (fetchInput env txdb pool mapTestPool fBlock fMiner) ∅ with
    | none => none
    | some inputs => if tx.vin.all (inputInRange inputs) then some inputs else none

/-- Every fetched pair is the entry the block sees and the transaction stored at its
position. -/
def Fetched (env : Env) (pool : PoolLookup) (index : TxIndexMap) (inputs : MapPrevTx) : Prop :=
  ∀ hash txindex txPrev, inputs.lookup hash = some (txindex, txPrev) →
    index hash = some txindex ∧ fetchPrev env pool hash txindex = some txPrev

section Passes
variable {env : Env} {inputs : MapPrevTx} {tx : CTransaction} {pindexBlock : CBlockIndex}

section Shared
variable {fBlock fMiner : Bool} (queued : (fBlock || fMiner) = true)
include queued

theorem fetchIndex_queued {txdb : CTxDB} {mapTestPool : Queue} {hash : Uint256} :
    fetchIndex txdb mapTestPool fBlock fMiner hash = overlay mapTestPool (txView txdb) hash := by
  simp only [fetchIndex, overlay, queued, if_true, readTxIndex_eq_txView]
  cases mapTestPool.lookup hash <;> rfl

theorem fetchInput_spec {txdb : CTxDB} {pool : PoolLookup} {mapTestPool : Queue}
    {result : MapPrevTx} {txin : CTxIn}
    (fetched : Fetched env pool (overlay mapTestPool (txView txdb)) inputs)
    (success : fetchInput env txdb pool mapTestPool fBlock fMiner inputs txin = some result) :
    Fetched env pool (overlay mapTestPool (txView txdb)) result := by
  simp only [fetchInput, fetchIndex_queued queued, queued, if_true] at success
  cases known : inputs.lookup txin.prevout.hash with
  | some pair =>
    simp only [known, some.injEq] at success
    rw [← success]
    exact fetched
  | none =>
    cases entryAt : overlay mapTestPool (txView txdb) txin.prevout.hash with
    | none => simp [known, entryAt] at success
    | some txindex =>
      simp only [known, entryAt, map_eq_some_iff] at success
      obtain ⟨txPrev, stored, rfl⟩ := success
      intro hash entry prev found
      rcases lookup_insert_cases found with ⟨rfl, ⟨⟩⟩ | ⟨_, old⟩
      · exact ⟨entryAt, stored⟩
      · exact fetched hash entry prev old

theorem fetchInputs_spec {txdb : CTxDB} {pool : PoolLookup} {mapTestPool : Queue}
    (ordinary : isCoinBase tx = false)
    (success : fetchInputs env txdb pool mapTestPool fBlock fMiner tx = some inputs) :
    Fetched env pool (overlay mapTestPool (txView txdb)) inputs := by
  simp only [fetchInputs, ordinary, Bool.false_eq_true, if_false] at success
  split at success
  · cases success
  · rename_i found run
    split_ifs at success
    have same : found = inputs := by simpa using success
    subst same
    exact (foldlM_rule (Fetched env pool (overlay mapTestPool (txView txdb))) (fun _ => True)
      (fun _ txin _ holds step =>
        ⟨fetchInput_spec queued holds step, trivial⟩)
      tx.vin (by intro hash entry prev found; simp at found) run).1

end Shared

/-! ## Values of the inputs -/

def getOutputFor (inputs : MapPrevTx) (txin : CTxIn) : Option CTxOut :=
  (inputs.lookup txin.prevout.hash).bind fun pair => pair.2.vout[txin.prevout.n.toNat]?

def addValueIn (inputs : MapPrevTx) (nResult : Int64) (txin : CTxIn) : Option Int64 :=
  (getOutputFor inputs txin).map fun txout => nResult + txout.nValue

def getValueIn (tx : CTransaction) (inputs : MapPrevTx) : Option Int64 :=
  if isCoinBase tx then some 0 else tx.vin.foldlM (addValueIn inputs) 0

def addP2SHSigOps (inputs : MapPrevTx) (nSigOps : Nat) (txin : CTxIn) : Option Nat :=
  (getOutputFor inputs txin).map fun prevout =>
    if isPayToScriptHash prevout.scriptPubKey then
      nSigOps + getSigOpCountP2SH prevout.scriptPubKey txin.scriptSig
    else nSigOps

def getP2SHSigOpCount (tx : CTransaction) (inputs : MapPrevTx) : Option Nat :=
  if isCoinBase tx then some 0 else tx.vin.foldlM (addP2SHSigOps inputs) 0

/-! ## ConnectInputs -/

def sits (record : BlockRecord) (pos : CDiskTxPos) : Bool :=
  record.nBlockPos == pos.nBlockPos && record.nFile == pos.nFile

/-- The walk back over the last `nCoinbaseMaturity` blocks, looking for the block
that holds the spent coinbase or coinstake. -/
def immature (env : Env) (top : Nat) (pos : CDiskTxPos) : CBlockIndex → Bool
  | .root record => decide (top < nCoinbaseMaturity env) && sits record pos
  | .grow p record =>
    decide (top - (depth p + 1) < nCoinbaseMaturity env) &&
      (sits record pos || immature env top pos p)

/-- The inexpensive checks of one input; the result is the running `nValueIn`. -/
def checkInput (env : Env) (tx : CTransaction) (inputs : MapPrevTx) (pindexBlock : CBlockIndex)
    (nValueIn : Int) (txin : CTxIn) : Option Int :=
  match inputs.lookup txin.prevout.hash with
  | none => none
  | some (txindex, txPrev) =>
    match txPrev.vout[txin.prevout.n.toNat]? with
    | none => none
    | some txout =>
      if txindex.slots.length ≤ txin.prevout.n.toNat then none
      else if (isCoinBase txPrev || isCoinStake txPrev) &&
          immature env (nHeight pindexBlock) txindex.pos pindexBlock then none
      else if tx.nTime < txPrev.nTime then none
      else if moneyRange txout.nValue.toInt = false ∨
          moneyRange (nValueIn + txout.nValue.toInt) = false then none
      else some (nValueIn + txout.nValue.toInt)

structure SpendState where
  i : Nat
  inputs : MapPrevTx
  mapTestPool : Queue

/-- One pass of the second loop: conflict, signature, mark as spent, write back. -/
def spendInput (env : Env) (tx : CTransaction) (posThisTx : CDiskTxPos) (nBestHeight : Int)
    (fBlock fMiner : Bool) (state : SpendState) (txin : CTxIn) : Option SpendState :=
  let hash := txin.prevout.hash
  let n := txin.prevout.n.toNat
  match state.inputs.lookup hash with
  | none => none
  | some (txindex, txPrev) =>
    match txindex.slots[n]? with
    | none => none
    | some slot =>
      if slot.isNull = false then none
      else if !(fBlock && decide (nBestHeight < getTotalBlocksEstimate env)) &&
          !env.verifySignature txPrev tx state.i then none
      else
        let spent : CTxIndex := { txindex with slots := txindex.slots.set n posThisTx }
        some {
          i := state.i + 1
          inputs := state.inputs.insert hash (spent, txPrev)
          mapTestPool :=
            if fBlock || fMiner then state.mapTestPool.insert hash spent
            else state.mapTestPool }

/-- A coinstake is exempt from the value and fee checks. -/
def checkFee (tx : CTransaction) (nValueIn : Int) : Bool :=
  isCoinStake tx ||
    match getValueOut tx with
    | none => false
    | some nValueOut =>
      decide (nValueOut ≤ nValueIn) &&
        decide (getMinFee tx 1 .block 0 ≤ nValueIn - nValueOut) &&
        moneyRange (nValueIn - nValueOut)

def connectInputs (env : Env) (tx : CTransaction) (inputs : MapPrevTx) (mapTestPool : Queue)
    (posThisTx : CDiskTxPos) (pindexBlock : CBlockIndex) (nBestHeight : Int)
    (fBlock fMiner : Bool) : Option Queue :=
  if isCoinBase tx then some mapTestPool
  else
    match tx.vin.foldlM (checkInput env tx inputs pindexBlock) 0 with
    | none => none
    | some nValueIn =>
      match tx.vin.foldlM (spendInput env tx posThisTx nBestHeight fBlock fMiner)
          ⟨0, inputs, mapTestPool⟩ with
      | none => none
      | some state => if checkFee tx nValueIn then some state.mapTestPool else none

/-- The value of one input, zero where the output is missing. -/
def inputValue (inputs : MapPrevTx) (txin : CTxIn) : Int :=
  ((getOutputFor inputs txin).map fun txout => txout.nValue.toInt).getD 0

def totalIn (inputs : MapPrevTx) (vin : List CTxIn) : Int := (vin.map (inputValue inputs)).sum

theorem checkInput_spec {nValueIn total : Int} {txin : CTxIn}
    (success : checkInput env tx inputs pindexBlock nValueIn txin = some total) :
    ∃ txout, getOutputFor inputs txin = some txout ∧ total = nValueIn + txout.nValue.toInt ∧
      moneyRange txout.nValue.toInt = true ∧ moneyRange total = true := by
  unfold checkInput at success
  split at success
  · cases success
  rename_i txindex txPrev found
  split at success
  · cases success
  rename_i txout outAt
  split_ifs at success with outOfRange young early badRange
  have same : nValueIn + txout.nValue.toInt = total := by simpa using success
  simp only [not_or, Bool.not_eq_false] at badRange
  exact ⟨txout, by simp [getOutputFor, found, outAt], same.symm, badRange.1, same ▸ badRange.2⟩

/-- The first loop bounds every partial sum, so the unchecked `int64_t` sum of
`GetValueIn` is the exact total. -/
theorem checkInputs_spec {vin : List CTxIn} :
    ∀ (start total : Int) (running : Int64), running.toInt = start → moneyRange start = true →
      vin.foldlM (checkInput env tx inputs pindexBlock) start = some total →
      total = start + totalIn inputs vin ∧ moneyRange total = true ∧
        ∃ sum : Int64, vin.foldlM (addValueIn inputs) running = some sum ∧ sum.toInt = total := by
  induction vin with
  | nil =>
    intro start total running exactly inRange success
    have same : start = total := by simpa using success
    subst same
    exact ⟨by simp [totalIn], inRange, running, by simp, exactly⟩
  | cons txin vin ih =>
    intro start total running exactly inRange success
    simp only [List.foldlM_cons, bind_eq_bind, bind_eq_some_iff] at success
    obtain ⟨next, first, rest⟩ := success
    obtain ⟨txout, outAt, nextExact, _, nextRange⟩ := checkInput_spec first
    have nextSum : (running + txout.nValue).toInt = next := by
      have bounds := moneyRange_iff.mp nextRange
      have limit : maxMoney = 1000000000000000 := rfl
      rw [Int64.toInt_add, exactly, ← nextExact]
      exact Int.bmod_eq_of_le (by omega) (by omega)
    obtain ⟨totalExact, totalRange, sum, sumRun, sumExact⟩ :=
      ih next total (running + txout.nValue) nextSum nextRange rest
    refine ⟨?_, totalRange, sum, ?_, sumExact⟩
    · rw [totalExact, nextExact]
      simp only [totalIn, List.map_cons, List.sum_cons, inputValue, outAt, map_some, getD_some]
      omega
    · simpa [addValueIn, outAt] using sumRun

theorem checkInputs_present {vin : List CTxIn} {start total : Int}
    (success : vin.foldlM (checkInput env tx inputs pindexBlock) start = some total) :
    ∀ txin ∈ vin, ∃ txout, getOutputFor inputs txin = some txout := by
  refine (foldlM_rule (fun _ => True) (fun txin => ∃ txout, getOutputFor inputs txin = some txout)
    (fun running txin next _ step => ?_) vin trivial success).2
  obtain ⟨txout, outAt, _⟩ := checkInput_spec step
  exact ⟨trivial, txout, outAt⟩

end Passes

section Int
variable {fBlock fMiner : Bool} (queued : (fBlock || fMiner) = true) (env : Env) (pool : PoolLookup)
  (base : TxIndexMap) (tx : CTransaction) (posThisTx : CDiskTxPos) (nBestHeight : Int)
include queued env pool base tx posThisTx nBestHeight

theorem spendInput_spec {state next : SpendState} {txin : CTxIn}
    (fetched : Fetched env pool (overlay state.mapTestPool base) state.inputs)
    (success : spendInput env tx posThisTx nBestHeight fBlock fMiner state txin = some next) :
    spend CDiskTxPos.isNull posThisTx (overlay state.mapTestPool base) (outpoint txin.prevout) =
        some (overlay next.mapTestPool base) ∧
      Fetched env pool (overlay next.mapTestPool base) next.inputs := by
  simp only [spendInput, queued, if_true] at success
  split at success
  · cases success
  rename_i txindex txPrev found
  split at success
  · cases success
  rename_i slot slotAt
  split_ifs at success with used badSignature
  simp only [some.injEq] at success
  obtain ⟨entryAt, stored⟩ := fetched _ txindex txPrev found
  have marked : overlay next.mapTestPool base =
      mark [outpoint txin.prevout] posThisTx (overlay state.mapTestPool base) := by
    rw [← success, overlay_insert]
    exact (mark_singleton_eq_update (outpoint txin.prevout) posThisTx _ txindex entryAt).symm
  constructor
  · refine spend_eq_some_iff.mpr ⟨⟨txindex, slot, entryAt, slotAt, ?_⟩, marked⟩
    simpa using used
  · intro hash entry prev inserted
    rw [← success] at inserted ⊢
    simp only at inserted ⊢
    rw [overlay_insert]
    rcases lookup_insert_cases inserted with ⟨rfl, ⟨⟩⟩ | ⟨other, old⟩
    · exact ⟨update_self _ _ _, stored⟩
    · rw [update_of_ne other]
      exact fetched hash entry prev old

theorem spendInputs_spec {vin : List CTxIn} : ∀ state final : SpendState,
      Fetched env pool (overlay state.mapTestPool base) state.inputs →
      vin.foldlM (spendInput env tx posThisTx nBestHeight fBlock fMiner) state = some final →
      (vin.map fun txin => outpoint txin.prevout).foldlM (spend CDiskTxPos.isNull posThisTx)
        (overlay state.mapTestPool base) = some (overlay final.mapTestPool base) := by
  induction vin with
  | nil =>
    intro state final _ success
    have same : state = final := by simpa using success
    rw [same]
    rfl
  | cons txin vin ih =>
    intro state final fetched success
    simp only [List.foldlM_cons, bind_eq_bind, bind_eq_some_iff] at success
    obtain ⟨next, first, rest⟩ := success
    obtain ⟨spent, nextFetched⟩ := spendInput_spec queued env pool base tx posThisTx nBestHeight
      fetched first
    simp only [List.map_cons, List.foldlM_cons, bind_eq_bind, spent, bind_some]
    exact ih next final nextFetched rest

end Int

/-- What connecting an ordinary transaction of a block establishes. -/
structure Connected (tx : CTransaction) (inputs : MapPrevTx) (posThisTx : CDiskTxPos)
    (before after : TxIndexMap) : Prop where
  spent : (spends tx).foldlM (spend CDiskTxPos.isNull posThisTx) before = some after
  present : ∀ txin ∈ tx.vin, ∃ txout, getOutputFor inputs txin = some txout
  valueIn : ∃ sum : Int64, getValueIn tx inputs = some sum ∧ sum.toInt = totalIn inputs tx.vin
  inRange : moneyRange (totalIn inputs tx.vin) = true
  paid : isCoinStake tx = false → ∃ nValueOut, getValueOut tx = some nValueOut ∧
    nValueOut ≤ totalIn inputs tx.vin

theorem connectInputs_spec {fBlock fMiner : Bool} (queued : (fBlock || fMiner) = true) (env : Env)
    (pool : PoolLookup) (base : TxIndexMap) (tx : CTransaction) (inputs : MapPrevTx)
    (queue result : Queue) (posThisTx : CDiskTxPos) (pindexBlock : CBlockIndex)
    (nBestHeight : Int) (ordinary : isCoinBase tx = false)
    (fetched : Fetched env pool (overlay queue base) inputs)
    (success : connectInputs env tx inputs queue posThisTx pindexBlock nBestHeight fBlock fMiner =
      some result) :
    Connected tx inputs posThisTx (overlay queue base) (overlay result base) := by
  simp only [connectInputs, ordinary, Bool.false_eq_true, if_false] at success
  split at success
  · cases success
  rename_i nValueIn checks
  split at success
  · cases success
  rename_i final run
  split_ifs at success with fee
  have same : final.mapTestPool = result := by simpa using success
  obtain ⟨totalExact, totalRange, sum, sumRun, sumExact⟩ := checkInputs_spec 0 nValueIn 0
    (by decide) (by decide) checks
  rw [Int.zero_add] at totalExact
  refine ⟨?_, checkInputs_present checks,
    ⟨sum, ?_, by rw [sumExact, totalExact]⟩, totalExact ▸ totalRange, ?_⟩
  · rw [← same]
    simp only [spends, ordinary, Bool.false_eq_true, if_false]
    exact spendInputs_spec queued env pool base tx posThisTx nBestHeight _ final fetched run
  · simpa [getValueIn, ordinary] using sumRun
  · intro notStake
    simp only [checkFee, notStake, Bool.false_or] at fee
    split at fee
    · cases fee
    · rename_i nValueOut valueOut
      simp only [Bool.and_eq_true, decide_eq_true_eq] at fee
      exact ⟨nValueOut, valueOut, totalExact ▸ fee.1.1⟩

/-! ## DisconnectInputs -/

def disconnectInput (txdb : CTxDB) (txin : CTxIn) : Option CTxDB :=
  match readTxIndex txdb txin.prevout.hash with
  | none => none
  | some txindex =>
    if txindex.slots.length ≤ txin.prevout.n.toNat then none
    else some (updateTxIndex txdb txin.prevout.hash
      { txindex with slots := txindex.slots.set txin.prevout.n.toNat nullPos })

def disconnectInputs (env : Env) (txdb : CTxDB) (tx : CTransaction) : Option CTxDB :=
  if isCoinBase tx then some (eraseTxIndex env txdb tx)
  else (tx.vin.foldlM disconnectInput txdb).map fun db => eraseTxIndex env db tx

theorem disconnectInput_view {txdb : CTxDB} {txin : CTxIn} :
    (disconnectInput txdb txin).map txView =
      release nullPos (txView txdb) (outpoint txin.prevout) := by
  cases entryAt : txView txdb txin.prevout.hash with
  | none => simp [disconnectInput, release, outpoint, readTxIndex_eq_txView, entryAt]
  | some txindex =>
    by_cases inRange : txin.prevout.n.toNat < txindex.slots.length
    · have released : release nullPos (txView txdb) (outpoint txin.prevout) =
          some (mark [outpoint txin.prevout] nullPos (txView txdb)) :=
        (release_eq_some_iff nullPos _ _ _).mpr ⟨⟨txindex, entryAt, inRange⟩, rfl⟩
      rw [released, mark_singleton_eq_update (outpoint txin.prevout) nullPos _ txindex entryAt]
      simp only [disconnectInput, readTxIndex_eq_txView, entryAt]
      rw [if_neg (by omega), map_some, txView_updateTxIndex]
      rfl
    · simp [disconnectInput, release, outpoint, readTxIndex_eq_txView, entryAt, inRange,
        not_lt.mp inRange]

theorem foldlM_disconnectInput_view {vin : List CTxIn} :
    ∀ txdb : CTxDB, (vin.foldlM disconnectInput txdb).map txView =
      (vin.map fun txin => outpoint txin.prevout).foldlM (release nullPos) (txView txdb) := by
  induction vin with
  | nil => intro txdb; rfl
  | cons txin vin ih =>
    intro txdb
    simp only [List.map_cons, List.foldlM_cons, bind_eq_bind, ← disconnectInput_view]
    cases disconnectInput txdb txin with
    | none => rfl
    | some next => exact ih next

/-- Disconnecting a transaction releases its inputs and erases its entry; it fails
exactly when the release does. -/
theorem disconnectInputs_view {env : Env} {txdb : CTxDB} {tx : CTransaction} :
    (disconnectInputs env txdb tx).map txView =
      ((spends tx).foldlM (release nullPos) (txView txdb)).map fun index =>
        update index (getTxHash env tx) none := by
  by_cases base : isCoinBase tx = true
  · simp [disconnectInputs, spends, base, txView_eraseTxIndex]
  · simp only [disconnectInputs, spends, base, Bool.false_eq_true, if_false,
      ← foldlM_disconnectInput_view, Option.map_map]
    congr 1
    funext db
    exact txView_eraseTxIndex

end SynergyLedger.Inputs
