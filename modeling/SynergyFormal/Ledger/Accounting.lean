import SynergyFormal.Ledger.ConnectBlock
import SynergyFormal.Lib.SignedWord

/-!
# What a block creates and consumes

Exact integer totals over the transactions of a block, and the proof that the
`int64_t` counters of `ConnectBlock` hold them.  A spent output is looked up where
the block finds it: in an earlier transaction of the same block, otherwise through
the index entry the database had before the block.

Lists of transactions are newest first, so the head of a list spends from its tail.
-/

set_option autoImplicit false

namespace SynergyLedger.Accounting

open SynergyLib SynergyData
open Function SignedWord SynergyLib.Tree OutputLedger Transaction CheckTransaction Block TxDB Inputs
  ConnectBlock

/-- The block stands in the block files where its index entry says.  Eight bytes of
magic and length precede every block, so no transaction has the position `(1,1,1)`. -/
structure OnDisk (env : Env) (pindex : CBlockIndex) (b : CBlock) : Prop where
  file : (value pindex).nFile ≠ 0xffffffff
  header : 8 ≤ (value pindex).nBlockPos.toNat
  stored : ∀ x ∈ blockTxs pindex b, env.readTx x.2 = some x.1

/-! ## Exact totals -/

def tally (f : List CTransaction → CTransaction → Int) : List CTransaction → Int
  | [] => 0
  | tx :: older => f older tx + tally f older

section Totals
variable (env : Env) (pool : PoolLookup) (index : TxIndexMap)

def referredTx (earlier : List CTransaction) (hash : Uint256) : Option CTransaction :=
  (earlier.find? fun tx => getTxHash env tx == hash).or
    ((index hash).bind (fetchPrev env pool hash))

def spentOutput (earlier : List CTransaction) (prevout : COutPoint) : Option CTxOut :=
  (referredTx env pool index earlier prevout.hash).bind fun tx => tx.vout[prevout.n.toNat]?

def outputValue (txout : Option CTxOut) : Int := (txout.map fun out => out.nValue.toInt).getD 0

def spentValue (earlier : List CTransaction) (tx : CTransaction) : Int :=
  if isCoinBase tx then 0
  else (tx.vin.map fun txin => outputValue (spentOutput env pool index earlier txin.prevout)).sum

def feeOf (earlier : List CTransaction) (tx : CTransaction) : Int :=
  if isCoinBase tx || isCoinStake tx then 0
  else spentValue env pool index earlier tx - totalOut tx.vout

def stakeExcessOf (earlier : List CTransaction) (tx : CTransaction) : Int :=
  if isCoinStake tx then totalOut tx.vout - spentValue env pool index earlier tx else 0

def created (txs : List CTransaction) : Int := tally (fun _ tx => totalOut tx.vout) txs

def consumed (txs : List CTransaction) : Int := tally (spentValue env pool index) txs

def feesPaid (txs : List CTransaction) : Int := tally (feeOf env pool index) txs

def stakeExcess (txs : List CTransaction) : Int := tally (stakeExcessOf env pool index) txs

def coinbaseOut (txs : List CTransaction) : Int :=
  tally (fun _ tx => if isCoinBase tx then totalOut tx.vout else 0) txs

/-- The last coinstake decides `nStakeReward`. -/
def lastStake : List CTransaction → Int
  | [] => 0
  | tx :: older => if isCoinStake tx then stakeExcessOf env pool index older tx else lastStake older

end Totals

theorem spentValue_coinbase (env : Env) (pool : PoolLookup) (index : TxIndexMap)
    (earlier : List CTransaction) {tx : CTransaction} (base : isCoinBase tx = true) :
    spentValue env pool index earlier tx = 0 := by simp [spentValue, base]

/-- Everything a list of transactions creates comes from coinbases, coinstakes or
spent outputs. -/
theorem created_sub_consumed (env : Env) (pool : PoolLookup) (index : TxIndexMap)
    (txs : List CTransaction) :
    created txs - consumed env pool index txs =
      coinbaseOut txs + stakeExcess env pool index txs - feesPaid env pool index txs := by
  induction txs with
  | nil => rfl
  | cons tx older ih =>
    simp only [created, consumed, coinbaseOut, stakeExcess, feesPaid, tally, feeOf,
      stakeExcessOf] at ih ⊢
    cases base : isCoinBase tx with
    | true =>
      have notStake := not_isCoinStake_of_isCoinBase base
      simp only [spentValue_coinbase env pool index older base, notStake]
      simp
      omega
    | false => cases stake : isCoinStake tx <;> simp <;> omega

/-! ## One transaction -/

/-- The block sees exactly the transactions before it and those ahead of it. -/
def Sees (env : Env) (pool : PoolLookup) (index : TxIndexMap) (earlier : List CTransaction)
    (queue : Queue) : Prop :=
  ∀ hash, (overlay queue index hash).bind (fetchPrev env pool hash) =
    referredTx env pool index earlier hash

variable {env : Env} {pool : PoolLookup} {index : TxIndexMap}

theorem sees_empty : Sees env pool index [] ∅ := by
  intro hash
  rw [overlay_empty]
  simp [referredTx]

theorem fetchPrev_mark {os : List (Uint256 × Nat)} {pos : CDiskTxPos} {hash : Uint256} :
    (mark os pos index hash).bind (fetchPrev env pool hash) =
      (index hash).bind (fetchPrev env pool hash) := by
  cases entryAt : index hash with
  | none => simp [mark, entryAt]
  | some entry => simp [mark, entryAt, markEntry, fetchPrev]

theorem sees_step {earlier : List CTransaction} {queue next : Queue} {tx : CTransaction}
    {pos : CDiskTxPos} (sees : Sees env pool index earlier queue) (placed : pos.isNull = false)
    (onDisk : pos ≠ memoryPos) (stored : env.readTx pos = some tx)
    (step : extendTx env (overlay queue index) (tx, pos) = some (overlay next index)) :
    Sees env pool index (tx :: earlier) next := by
  obtain ⟨_, _, after⟩ := (extend_iff placed).mp step
  intro hash
  rw [after, addTx]
  by_cases same : hash = getTxHash env tx
  · subst same
    have entered : fetchPrev env pool (getTxHash env tx) (newEntry (shape env) nullPos tx pos) =
        some tx := by simp [fetchPrev, newEntry, onDisk, stored]
    rw [show (shape env).txid tx = getTxHash env tx from rfl, update_self]
    simp [referredTx, entered]
  · rw [show (shape env).txid tx = getTxHash env tx from rfl, update_of_ne same,
      fetchPrev_mark, sees hash]
    have other : (getTxHash env tx == hash) = false := by simpa using fun equal => same equal.symm
    simp [referredTx, other]

theorem inputValue_eq {earlier : List CTransaction} {queue : Queue} {inputs : MapPrevTx}
    {txin : CTxIn} (sees : Sees env pool index earlier queue)
    (fetched : Fetched env pool (overlay queue index) inputs)
    (present : ∃ txout, getOutputFor inputs txin = some txout) :
    inputValue inputs txin = outputValue (spentOutput env pool index earlier txin.prevout) := by
  obtain ⟨txout, outAt⟩ := present
  obtain ⟨⟨txindex, txPrev⟩, found, slotAt⟩ := Option.bind_eq_some_iff.mp outAt
  obtain ⟨entryAt, stored⟩ := fetched _ txindex txPrev found
  have referred : referredTx env pool index earlier txin.prevout.hash = some txPrev := by
    rw [← sees, entryAt, Option.bind_some, stored]
  rw [inputValue, outAt, outputValue, spentOutput, referred, Option.bind_some, slotAt]

/-- What entering one transaction adds to each counter. -/
structure Entered (env : Env) (pool : PoolLookup) (index : TxIndexMap)
    (earlier : List CTransaction) (tx : CTransaction) (pass next : BlockPass) : Prop where
  spentRange : 0 ≤ spentValue env pool index earlier tx ∧
    spentValue env pool index earlier tx ≤ maxMoney
  outRange : 0 ≤ totalOut tx.vout ∧ totalOut tx.vout ≤ maxMoney
  feeRange : 0 ≤ feeOf env pool index earlier tx ∧ feeOf env pool index earlier tx ≤ maxMoney
  valueIn : next.nValueIn = pass.nValueIn + Int64.ofInt (spentValue env pool index earlier tx)
  valueOut : next.nValueOut = pass.nValueOut + Int64.ofInt (totalOut tx.vout)
  fees : next.nFees = pass.nFees + Int64.ofInt (feeOf env pool index earlier tx)
  stakeReward : next.nStakeReward = if isCoinStake tx then
    Int64.ofInt (stakeExcessOf env pool index earlier tx) else pass.nStakeReward

section BlockPass
variable (env pool) (ledger : Ledger) (pindex : CBlockIndex)
  (earlier : List CTransaction) (tx : CTransaction) (pass next : BlockPass)
include env pool ledger pindex earlier tx pass next

theorem entered_ordinary {mapInputs : MapPrevTx} {queue : Queue} {nTxValueIn : Int64}
    {nTxValueOut : Int} (sees : Sees env pool (txView ledger.txdb) earlier pass.mapQueuedChanges)
    (ordinary : isCoinBase tx = false)

    (one : OrdinaryPass env pool ledger pindex tx pass next mapInputs queue nTxValueIn nTxValueOut) :
    Entered env pool (txView ledger.txdb) earlier tx pass next := by
  obtain ⟨sum, sumRun, sumExact⟩ := one.connected.valueIn
  have sameSum : sum = nTxValueIn := Option.some.inj (sumRun.symm.trans one.valueIn)
  have spentExact : spentValue env pool (txView ledger.txdb) earlier tx =
      totalIn mapInputs tx.vin := by
    simp only [spentValue, ordinary, totalIn, Bool.false_eq_true, if_false]
    exact congrArg List.sum (List.map_congr_left fun txin member =>
      (inputValue_eq sees one.fetched (one.connected.present txin member)).symm)
  obtain ⟨outExact, outRange⟩ := getValueOut_spec one.valueOut
  have inRange := moneyRange_iff.mp one.connected.inRange
  rw [← spentExact] at inRange
  have inWord : nTxValueIn = Int64.ofInt (spentValue env pool (txView ledger.txdb) earlier tx) := by
    rw [spentExact, ← sumExact, sameSum, Int64.ofInt_toInt]
  obtain ⟨nSigOps, rfl⟩ := one.result
  refine ⟨inRange, outExact ▸ outRange, ?_, ?_, ?_, ?_, ?_⟩
  · cases stake : isCoinStake tx with
    | true =>
      simp only [feeOf, stake, Bool.or_true, if_true]
      decide
    | false =>
      obtain ⟨paidOut, paidRun, paid⟩ := one.connected.paid stake
      have samePaid : paidOut = nTxValueOut := Option.some.inj (paidRun.symm.trans one.valueOut)
      simp only [feeOf, ordinary, stake, Bool.or_self, Bool.false_eq_true, if_false]
      omega
  · simp [addTotals, enterTx, inWord]
  · simp [addTotals, enterTx, outExact]
  · cases stake : isCoinStake tx <;>
      simp [addTotals, enterTx, feeOf, ordinary, stake, inWord, outExact, Int64.ofInt_sub]
  · cases stake : isCoinStake tx <;>
      simp [addTotals, enterTx, stakeExcessOf, stake, inWord, outExact, Int64.ofInt_sub]

theorem entered_connectTx (sees : Sees env pool (txView ledger.txdb) earlier pass.mapQueuedChanges)
    (success : connectTx env pool ledger pindex pass tx = some next) :
    Entered env pool (txView ledger.txdb) earlier tx pass next := by
  rcases connectTx_cases success with
    ⟨base, nTxValueOut, nSigOps, valueOut, rfl⟩ |
      ⟨ordinary, mapInputs, queue, nTxValueIn, nTxValueOut, one⟩
  · have notStake := not_isCoinStake_of_isCoinBase base
    have spentExact := spentValue_coinbase env pool (txView ledger.txdb) earlier base
    have feeExact : feeOf env pool (txView ledger.txdb) earlier tx = 0 := by simp [feeOf, base]
    obtain ⟨outExact, outRange⟩ := getValueOut_spec valueOut
    have positive : (0 : Int) ≤ 0 ∧ 0 ≤ maxMoney := by decide
    exact ⟨spentExact ▸ positive, outExact ▸ outRange, feeExact ▸ positive,
      by simp [enterTx, spentExact], by simp [outExact], by simp [enterTx, feeExact],
      by simp [enterTx, notStake]⟩
  · exact entered_ordinary env pool ledger pindex earlier tx pass next sees ordinary one

end BlockPass

/-! ## The whole block -/

/-- The counters of a pass are the exact totals of the transactions entered so far. -/
structure Balanced (env : Env) (pool : PoolLookup) (index : TxIndexMap)
    (earlier : List CTransaction) (pass : BlockPass) : Prop where
  sees : Sees env pool index earlier pass.mapQueuedChanges
  valueIn : pass.nValueIn.toInt = consumed env pool index earlier
  valueOut : pass.nValueOut.toInt = created earlier
  fees : pass.nFees.toInt = feesPaid env pool index earlier
  stakeReward : pass.nStakeReward.toInt = lastStake env pool index earlier
  valueInRange : 0 ≤ consumed env pool index earlier ∧
    consumed env pool index earlier ≤ earlier.length * maxMoney
  valueOutRange : 0 ≤ created earlier ∧ created earlier ≤ earlier.length * maxMoney
  feesRange : 0 ≤ feesPaid env pool index earlier ∧
    feesPaid env pool index earlier ≤ earlier.length * maxMoney

variable {pindex : CBlockIndex}

theorem balanced_start {b : CBlock} : Balanced env pool index [] (startPass pindex b) := by
  refine ⟨sees_empty, rfl, rfl, rfl, rfl, ?_, ?_, ?_⟩ <;> simp [consumed, created, feesPaid, tally]

theorem counter_add {counter : Int64} {total amount : Int} {count : Nat}
    (counted : counter.toInt = total) (range : 0 ≤ total ∧ total ≤ count * maxMoney)
    (amountRange : 0 ≤ amount ∧ amount ≤ maxMoney) (room : (count + 1) * maxMoney < 2 ^ 63) :
    (counter + Int64.ofInt amount).toInt = amount + total ∧
      0 ≤ amount + total ∧ amount + total ≤ (count + 1 : Nat) * maxMoney := by
  have expand : ((count : Int) + 1) * maxMoney = count * maxMoney + maxMoney := by ring
  have limit : maxMoney = 1000000000000000 := rfl
  rw [expand] at room
  have amountExact : (Int64.ofInt amount).toInt = amount := toInt_ofInt ⟨by omega, by omega⟩
  refine ⟨?_, by omega, ?_⟩
  · rw [toInt_add (by rw [counted, amountExact]; exact ⟨by omega, by omega⟩), counted,
      amountExact, Int.add_comm]
  · push_cast
    rw [expand]
    omega

theorem Balanced.step {ledger : Ledger} {earlier : List CTransaction} {pass next : BlockPass}
    {tx : CTransaction} (balanced : Balanced env pool (txView ledger.txdb) earlier pass)
    (success : connectTx env pool ledger pindex pass tx = some next)
    (placed : (thisPos pindex pass).isNull = false) (onDisk : thisPos pindex pass ≠ memoryPos)
    (stored : env.readTx (thisPos pindex pass) = some tx)
    (room : ((earlier.length : Int) + 1) * maxMoney < 2 ^ 63) :
    Balanced env pool (txView ledger.txdb) (tx :: earlier) next := by
  have entered := entered_connectTx env pool ledger pindex earlier tx pass next balanced.sees success
  obtain ⟨extended, _⟩ := connectTx_extend success
  obtain ⟨inExact, inRange⟩ := counter_add balanced.valueIn balanced.valueInRange entered.spentRange
    room
  obtain ⟨outExact, outRange⟩ := counter_add balanced.valueOut balanced.valueOutRange
    entered.outRange room
  obtain ⟨feesExact, feesRange⟩ := counter_add balanced.fees balanced.feesRange entered.feeRange
    room
  refine ⟨sees_step balanced.sees placed onDisk stored extended,
    by rw [entered.valueIn, inExact]; rfl, by rw [entered.valueOut, outExact]; rfl,
    by rw [entered.fees, feesExact]; rfl, ?_, inRange, outRange, feesRange⟩
  rw [entered.stakeReward, lastStake]
  cases stake : isCoinStake tx with
  | false => simpa using balanced.stakeReward
  | true =>
    have limit : maxMoney = 1000000000000000 := rfl
    have spent := entered.spentRange
    have out := entered.outRange
    simp only [if_true]
    refine toInt_ofInt ?_
    simp only [stakeExcessOf, stake, if_true]
    exact ⟨by omega, by omega⟩

theorem Balanced.run {ledger : Ledger} (file : (value pindex).nFile ≠ 0xffffffff)
    (header : 8 ≤ (value pindex).nBlockPos.toNat) (txs : List CTransaction) :
    ∀ (earlier : List CTransaction) (pass final : BlockPass),
      Balanced env pool (txView ledger.txdb) earlier pass →
      txs.foldlM (connectTx env pool ledger pindex) pass = some final →
      (∀ x ∈ txPositions (value pindex).nFile (value pindex).nBlockPos pass.nTxPos txs,
        env.readTx x.2 = some x.1) →
      ((earlier.length + txs.length : Nat) : Int) * maxMoney < 2 ^ 63 →
      Balanced env pool (txView ledger.txdb) (txs.reverse ++ earlier) final := by
  induction txs with
  | nil =>
    intro earlier pass final balanced run _ _
    have same : pass = final := by simpa using run
    simpa [← same] using balanced
  | cons tx txs ih =>
    intro earlier pass final balanced run stored room
    simp only [List.foldlM_cons, Option.bind_eq_bind, Option.bind_eq_some_iff] at run
    obtain ⟨next, first, rest⟩ := run
    obtain ⟨_, position⟩ := connectTx_extend first
    have limit : maxMoney = 1000000000000000 := rfl
    have placed : (thisPos pindex pass).isNull = false := by
      simpa [CDiskTxPos.isNull, thisPos] using file
    have onDisk : thisPos pindex pass ≠ memoryPos := by
      intro equal
      have blockPos : (value pindex).nBlockPos = 1 := congrArg CDiskTxPos.nBlockPos equal
      rw [blockPos] at header
      exact absurd header (by decide)
    have grown := balanced.step first placed onDisk (stored _ List.mem_cons_self)
      (by simp only [List.length_cons, limit] at room ⊢; push_cast at room; omega)
    have tail := ih (tx :: earlier) next final grown rest
      (fun x member => stored x (List.mem_cons_of_mem _ (position ▸ member)))
      (by simp only [List.length_cons, limit] at room ⊢; omega)
    simpa using tail

theorem balanced_block {ledger : Ledger} {b : CBlock} {pass : BlockPass}
    (checked : CheckedBlock env b) (disk : OnDisk env pindex b)
    (run : b.vtx.foldlM (connectTx env pool ledger pindex) (startPass pindex b) = some pass) :
    Balanced env pool (txView ledger.txdb) b.vtx.reverse pass := by
  have few := checked.length_le
  have size : maxBlockSize = 250000 := rfl
  have limit : maxMoney = 1000000000000000 := rfl
  have whole := Balanced.run disk.file disk.header b.vtx [] (startPass pindex b) pass
    balanced_start run disk.stored
    (by simp only [List.length_nil, Nat.zero_add, limit]; omega)
  simpa using whole

end SynergyLedger.Accounting
