import SynergyFormal.Ledger.Accounting
import SynergyFormal.Ledger.SpentIndex

/-!
# Outstanding money

The sum of the outputs on a path whose slot in the transaction index is null.  A
connected block changes it by what its transactions create less what they consume,
which is what `ConnectBlock` adds to the supply of the parent.

The accounting of a block reads a spent transaction back from the block files, the sum
takes it from the path; both agree as long as the files return what was written.
-/

set_option autoImplicit false

namespace SynergyLedger.Outstanding

open SynergyLib SynergyData
open Function SignedWord SynergyLib.Tree OutputLedger Transaction CheckTransaction Block TxDB Inputs
  ConnectBlock Accounting SpentIndex

def outputValues (tx : CTransaction) : List Int := tx.vout.map fun txout => txout.nValue.toInt

def outstanding (env : Env) (index : TxIndexMap) (chain : List PlacedTx) : Int :=
  unspentWorth (shape env) CDiskTxPos.isNull outputValues index chain

/-- The outputs still unspent on the path to a block, those of the genesis block apart. -/
def supplyAt (env : Env) (pindex : CBlockIndex) : Int :=
  outstanding env (canonical (shape env) nullPos (chainTxs [] pindex)) (chainTxs [] pindex)

/-! ## Reading the chain back -/

def ReadsBack (env : Env) (chain : List PlacedTx) : Prop :=
  ∀ x ∈ chain, x.2 ≠ memoryPos ∧ env.readTx x.2 = some x.1

variable {pindex tip : CBlockIndex} {env : Env} {b : CBlock} {record : BlockRecord}
  {next ledger : Ledger}

theorem readsBack_block (disk : OnDisk env pindex b) : ReadsBack env (blockTxs pindex b) := by
  intro x member
  refine ⟨fun memory => ?_, disk.stored x member⟩
  have position := (txPositions_file _ x member).2
  have header := disk.header
  rw [← position, memory] at header
  exact absurd header (by decide)

/-- Every block of the path after the genesis block stands in the block files. -/
def PathOnDisk (env : Env) (pindex : CBlockIndex) : Prop :=
  ∀ tip record, .grow tip record ∈ path pindex → OnDisk env (.grow tip record) record.block

theorem PathOnDisk.parent (disk : PathOnDisk env (.grow tip record)) : PathOnDisk env tip :=
  fun p r below => disk p r (mem_path_grow.mpr (Or.inl below))

theorem readsBack_chainTxs (disk : PathOnDisk env pindex) : ReadsBack env (chainTxs [] pindex) := by
  induction pindex with
  | root record =>
    intro x member
    cases member
  | grow p record ih =>
    intro x member
    rcases List.mem_append.mp member with here | before
    · exact readsBack_block (disk p record (self_mem_path _)) x (List.mem_reverse.mp here)
    · exact ih disk.parent x before

section Reading
variable {chain : List PlacedTx}

section ReadsBack
variable (pool : PoolLookup) (valid : Valid (shape env) nullPos CDiskTxPos.isNull chain)
  (reads : ReadsBack env chain)
include pool valid reads

theorem fetchPrev_canonical {hash : Uint256} :
    (canonical (shape env) nullPos chain hash).bind (fetchPrev env pool hash) =
      (chain.find? fun x => getTxHash env x.1 == hash).map Prod.fst := by
  cases found : chain.find? fun x => getTxHash env x.1 == hash with
  | none =>
    have absent : canonical (shape env) nullPos chain hash = none := by
      refine canonical_eq_none_iff.mpr fun x member equal => ?_
      have same : getTxHash env x.1 = hash := equal
      exact List.find?_eq_none.mp found x member (by simpa using same)
    rw [absent]
    rfl
  | some x =>
    have member := List.mem_of_find?_eq_some found
    obtain rfl : getTxHash env x.1 = hash := by simpa using List.find?_some found
    obtain ⟨entry, entryAt, position, _⟩ := valid.entry x member
    obtain ⟨onDisk, stored⟩ := reads x member
    have present : canonical (shape env) nullPos chain (getTxHash env x.1) = some entry := entryAt
    rw [present, Option.bind_some, fetchPrev, position, if_neg onDisk, stored]
    rfl

theorem outputWorth_eq {older : List PlacedTx} {prevout : COutPoint} :
    outputWorth (shape env) outputValues (older ++ chain) (outpoint prevout) =
      outputValue (spentOutput env pool (canonical (shape env) nullPos chain)
        (older.map Prod.fst) prevout) := by
  have referred : referredTx env pool (canonical (shape env) nullPos chain) (older.map Prod.fst)
      prevout.hash =
        ((older ++ chain).find? fun x => getTxHash env x.1 == prevout.hash).map Prod.fst := by
    rw [referredTx, fetchPrev_canonical pool valid reads, List.find?_append, List.find?_map,
      Option.map_or]
    rfl
  have search : ((older ++ chain).find? fun x => (shape env).txid x.1 == (outpoint prevout).1) =
      (older ++ chain).find? fun x => getTxHash env x.1 == prevout.hash := rfl
  rw [outputWorth, search, spentOutput, referred]
  cases (older ++ chain).find? fun x => getTxHash env x.1 == prevout.hash with
  | none => rfl
  | some x =>
    simp only [Option.map_some, Option.bind_some, outputValue, outputValues,
      List.getD_eq_getElem?_getD, List.getElem?_map, outpoint]

theorem spends_worth (older : List PlacedTx) (tx : CTransaction) :
    ((spends tx).map (outputWorth (shape env) outputValues (older ++ chain))).sum =
      spentValue env pool (canonical (shape env) nullPos chain) (older.map Prod.fst) tx := by
  unfold spends spentValue
  split_ifs
  · rfl
  · rw [List.map_map]
    exact congrArg List.sum (List.map_congr_left fun txin _ =>
      outputWorth_eq pool valid reads)

end ReadsBack

/-! ## What a block adds -/

theorem outstanding_append (pool : PoolLookup) (reads : ReadsBack env chain)
    {placed : List PlacedTx} : Valid (shape env) nullPos CDiskTxPos.isNull (placed ++ chain) →
      outstanding env (canonical (shape env) nullPos (placed ++ chain)) (placed ++ chain) =
        outstanding env (canonical (shape env) nullPos chain) chain +
          created (placed.map Prod.fst) -
          consumed env pool (canonical (shape env) nullPos chain) (placed.map Prod.fst) := by
  induction placed with
  | nil =>
    intro _
    simp [created, consumed, tally]
  | cons x placed ih =>
    intro valid
    obtain ⟨tx, pos⟩ := x
    have older := ih valid.tail
    have sized : (shape env).outputs tx = (outputValues tx).length := by simp [shape, outputValues]
    have grown : Valid (shape env) nullPos CDiskTxPos.isNull ((tx, pos) :: (placed ++ chain)) :=
      valid
    have first := grown.unspentWorth_cons nullPos_isNull sized
    have spent := spends_worth pool valid.tail.drop reads placed tx
    simp only [outstanding, List.cons_append] at older ⊢
    rw [first, older]
    simp only [created, consumed, tally, List.map_cons]
    have spentHere : (((shape env).spends tx).map
        (outputWorth (shape env) outputValues (placed ++ chain))).sum = _ := spent
    have total : (outputValues tx).sum = totalOut tx.vout := rfl
    rw [spentHere, total]
    omega

end Reading

theorem supplyAt_grow (pool : PoolLookup)
    (valid : Valid (shape env) nullPos CDiskTxPos.isNull (chainTxs [] (.grow tip record)))
    (disk : PathOnDisk env (.grow tip record)) :
    supplyAt env (.grow tip record) = supplyAt env tip + created record.block.vtx.reverse -
      consumed env pool (canonical (shape env) nullPos (chainTxs [] tip))
        record.block.vtx.reverse := by
  have whole := outstanding_append pool (readsBack_chainTxs disk.parent) valid
  have order : (blockTxs (.grow tip record) record.block).reverse.map Prod.fst =
      record.block.vtx.reverse := by rw [List.map_reverse, blockTxs_fst]
  rw [order] at whole
  exact whole

theorem supplyAt_nonneg (checked : ∀ x ∈ chainTxs [] pindex, Checked x.1) :
    0 ≤ supplyAt env pindex := by
  refine unspentWorth_nonneg fun x member amount listed => ?_
  obtain ⟨txout, output, rfl⟩ := List.mem_map.mp listed
  obtain ⟨total, success⟩ := (checked x member).value
  exact sumOutputs_nonneg 0 total success txout output

/-! ## The supply field -/

/-- The field of this index entry holds the outstanding money of its path. -/
def Exact (env : Env) (ledger : Ledger) (pindex : CBlockIndex) : Prop :=
  (ledger.nMoneySupply pindex).toInt = supplyAt env pindex

theorem nMoneySupply_connectBlock {adjustedTime : Int} {pool : PoolLookup}
    (run : connectBlock env adjustedTime pool ledger b pindex = some next) {p : CBlockIndex}
    (other : p ≠ pindex) : next.nMoneySupply p = ledger.nMoneySupply p := by
  obtain ⟨_, pass, _, _, rfl⟩ := connectBlock_cases run
  exact update_of_ne other _ _

theorem nMoneySupply_disconnectBlock (run : disconnectBlock env ledger b pindex = some next) :
    next.nMoneySupply = ledger.nMoneySupply := by
  obtain ⟨txdb, _, rfl⟩ := Option.map_eq_some_iff.mp run
  rfl

section Connecting
variable {Known : CTransaction → Prop} {start : Ledger}
variable {genesis : BlockRecord}

/-- Connecting a block on an exact parent makes its own field exact, unless the sum
leaves the range of `int64_t`. -/
theorem connect_exact {adjustedTime : Int} {pool : PoolLookup} (distinct : CollisionFree env Known)
    (first : Described env Known genesis [] start)
    (history : History env Known start genesis ledger tip)
    (accepted : Accepted (.grow tip record)) (known : ∀ tx ∈ record.block.vtx, Known tx)
    (disk : PathOnDisk env (.grow tip record)) (exact : Exact env ledger tip)
    (room : supplyAt env (.grow tip record) < 2 ^ 63)
    (run : connectBlock env adjustedTime pool ledger record.block (.grow tip record) = some next) :
    Exact env next (.grow tip record) := by
  have longer := history.connect accepted known run rfl
  obtain ⟨_, index⟩ := history_canonical distinct first history
  obtain ⟨valid, _⟩ := history_canonical distinct first longer
  have onPath := onPath_chainTxs first _ (history_admitted longer)
  have grown := supplyAt_grow pool valid disk
  have nonneg : 0 ≤ supplyAt env (.grow tip record) :=
    supplyAt_nonneg fun x member => (onPath x member).checked
  obtain ⟨checked, pass, loop, _, rfl⟩ := connectBlock_cases run
  have balanced := balanced_block checked (disk tip record (self_mem_path _)) loop
  have field : (finishConnect env ledger (.grow tip record) record.block pass).nMoneySupply
      (.grow tip record) = ledger.nMoneySupply tip + pass.nValueOut - pass.nValueIn :=
    update_self _ _ _
  have exactSum : (ledger.nMoneySupply tip).toInt + pass.nValueOut.toInt - pass.nValueIn.toInt =
      supplyAt env (.grow tip record) := by
    rw [exact, balanced.valueOut, balanced.valueIn, index, grown]
  have fits : Fits ((ledger.nMoneySupply tip).toInt + pass.nValueOut.toInt -
      pass.nValueIn.toInt) := by
    rw [exactSum]
    exact ⟨by omega, room⟩
  rw [Exact, field, toInt_add_sub fits, exactSum]

end Connecting

end SynergyLedger.Outstanding
