import SynergyFormal.Ledger.Accounting

/-!
# How much a block mints

A connected proof-of-stake block never creates more than its calculated stake reward.
For a proof-of-work block the reward check only looks at the coinbase, and the value
check of `ConnectInputs` skips every transaction of coinstake shape, wherever it
stands in the block: the block stays within its subsidy exactly when those
transactions together take no more than the coinbase left unclaimed.
-/

set_option autoImplicit false

namespace SynergyLedger.Mint

open SynergyData
open SynergyLib.SignedWord Transaction CheckTransaction Block TxDB Inputs Reward ConnectBlock
  Accounting

/-- Outputs created minus outputs consumed, over the whole block. -/
def net (env : Env) (pool : PoolLookup) (index : TxIndexMap) (b : CBlock) : Int :=
  created b.vtx.reverse - consumed env pool index b.vtx.reverse

/-- What the coinbase leaves of the subsidy and the fees. -/
def unclaimed (env : Env) (pool : PoolLookup) (index : TxIndexMap) (pindex : CBlockIndex)
    (b : CBlock) : Int :=
  (getPoWSubsidy (nHeight pindex)).toInt + feesPaid env pool index b.vtx.reverse -
    coinbaseOut b.vtx.reverse

/-- The block creates no more than its kind of block is rewarded with. -/
structure MintBounded (env : Env) (pool : PoolLookup) (ledger : Ledger) (pindex : CBlockIndex)
    (b : CBlock) : Prop where
  work : isProofOfStake b = false →
    net env pool (txView ledger.txdb) b ≤ (getPoWSubsidy (nHeight pindex)).toInt
  stake : isProofOfStake b = true → ∃ reward, calculatedStakeReward env ledger pindex b =
    some reward ∧ net env pool (txView ledger.txdb) b ≤ reward.toInt

/-! ## The totals of a checked block -/

theorem tally_append_of_zero (f : List CTransaction → CTransaction → Int)
    (newer older : List CTransaction) (zero : ∀ tx ∈ newer, ∀ before, f before tx = 0) :
    tally f (newer ++ older) = tally f older := by
  induction newer with
  | nil => rfl
  | cons tx newer ih =>
    rw [List.cons_append, tally, zero tx List.mem_cons_self, Int.zero_add]
    exact ih fun other member => zero other (List.mem_cons_of_mem _ member)

variable {env : Env} {pool : PoolLookup} {b : CBlock} {pass : BlockPass} {ledger : Ledger}

theorem lastStake_append_of_none {index : TxIndexMap} {newer older : List CTransaction}
    (ordinary : ∀ tx ∈ newer, isCoinStake tx = false) :
    lastStake env pool index (newer ++ older) = lastStake env pool index older := by
  induction newer with
  | nil => rfl
  | cons tx newer ih =>
    simp only [List.cons_append, lastStake, ordinary tx List.mem_cons_self, Bool.false_eq_true,
      if_false]
    exact ih fun other member => ordinary other (List.mem_cons_of_mem _ member)

theorem stakeExcess_eq_zero (env : Env) (pool : PoolLookup) (index : TxIndexMap)
    (txs : List CTransaction) (ordinary : ∀ tx ∈ txs, isCoinStake tx = false) :
    stakeExcess env pool index txs = 0 := by
  have none := tally_append_of_zero (stakeExcessOf env pool index) txs []
    (fun tx member before => by simp [stakeExcessOf, ordinary tx member])
  simpa [stakeExcess, tally] using none

theorem coinbaseOut_block (checked : CheckedBlock env b) {first : CTransaction}
    {rest : List CTransaction} (shape : b.vtx = first :: rest) :
    coinbaseOut b.vtx.reverse = totalOut first.vout := by
  obtain ⟨base, others⟩ := checked.coinbase first rest shape
  rw [shape, List.reverse_cons, coinbaseOut, tally_append_of_zero]
  · simp [tally, base]
  · intro tx member before
    simp [others tx (List.mem_reverse.mp member)]

/-! ## Proof of work -/

theorem unclaimed_nonneg {pindex : CBlockIndex} (checked : CheckedBlock env b)
    (balanced : Balanced env pool (txView ledger.txdb) b.vtx.reverse pass)
    (work : checkWorkReward pindex b pass = true) :
    0 ≤ unclaimed env pool (txView ledger.txdb) pindex b := by
  obtain ⟨first, rest, shape⟩ := List.exists_cons_of_ne_nil checked.nonempty
  have baseOut := coinbaseOut_block checked shape
  simp only [checkWorkReward, shape] at work
  split at work
  · cases work
  rename_i nValueOut valueOut
  obtain ⟨outExact, _⟩ := getValueOut_spec valueOut
  have paid := of_decide_eq_true work
  have few := checked.length_le
  have size : maxBlockSize = 250000 := rfl
  have limit : maxMoney = 1000000000000000 := rfl
  have unit : coin = 100000000 := rfl
  have feesRange := balanced.feesRange
  rw [← balanced.fees, List.length_reverse, limit] at feesRange
  have subsidyRange := getPoWSubsidy_range (nHeight pindex)
  rw [getProofOfWorkReward, toInt_add ⟨by omega, by omega⟩, balanced.fees] at paid
  rw [unclaimed, baseOut]
  omega

/-! ## Proof of stake -/

theorem isProofOfStake_shape (proofOfStake : isProofOfStake b = true) :
    ∃ first second rest, b.vtx = first :: second :: rest := by
  unfold isProofOfStake at proofOfStake
  split at proofOfStake
  · rename_i first second rest shape
    exact ⟨first, second, rest, shape⟩
  · cases proofOfStake

theorem net_le_stakeReward (checked : CheckedBlock env b) (proofOfStake : isProofOfStake b = true)
    (balanced : Balanced env pool (txView ledger.txdb) b.vtx.reverse pass) :
    net env pool (txView ledger.txdb) b ≤ pass.nStakeReward.toInt := by
  obtain ⟨first, second, rest, shape⟩ := isProofOfStake_shape proofOfStake
  obtain ⟨emptyBase, stake, others⟩ := checked.stake proofOfStake first second rest shape
  obtain ⟨base, _⟩ := checked.coinbase first (second :: rest) shape
  have baseOut := coinbaseOut_block checked shape
  have notStake := not_isCoinStake_of_isCoinBase base
  have newest : ∀ tx ∈ rest.reverse, isCoinStake tx = false := fun tx member =>
    others tx (List.mem_reverse.mp member)
  have order : b.vtx.reverse = rest.reverse ++ [second, first] := by simp [shape]
  have excess : stakeExcess env pool (txView ledger.txdb) b.vtx.reverse =
      lastStake env pool (txView ledger.txdb) b.vtx.reverse := by
    rw [order, stakeExcess, lastStake_append_of_none newest, tally_append_of_zero]
    · simp [tally, lastStake, stake, notStake, stakeExcessOf]
    · intro tx member before
      simp [stakeExcessOf, newest tx member]
  rw [net, created_sub_consumed, baseOut, emptyBase, excess, ← balanced.stakeReward]
  have fees := balanced.feesRange.1
  omega

/-! ## The bound -/

/-- A connected block without coinstake-shaped transactions stays within its reward.  The
coinbase of a proof-of-work block never claims more than subsidy and fees, and what it leaves
unclaimed is all that such transactions may create. -/
theorem mintBounded_iff (env : Env) (checkTime connectTime : Int) (pool : PoolLookup)
    (ledger result : Ledger) (b : CBlock) (pindex : CBlockIndex) (disk : OnDisk env pindex b)
    (check : checkBlock env checkTime b true true true = true)
    (connect : connectBlock env connectTime pool ledger b pindex = some result) :
    ((∀ tx ∈ b.vtx, isCoinStake tx = false) → MintBounded env pool ledger pindex b) ∧
    (isProofOfStake b = false → 0 ≤ unclaimed env pool (txView ledger.txdb) pindex b) ∧
    (MintBounded env pool ledger pindex b ↔ isProofOfStake b = true ∨
      stakeExcess env pool (txView ledger.txdb) b.vtx.reverse ≤
        unclaimed env pool (txView ledger.txdb) pindex b) := by
  have checked := checkBlock_spec check
  obtain ⟨_, pass, run, reward, _⟩ := connectBlock_cases connect
  have balanced := balanced_block checked disk run
  cases kind : isProofOfStake b with
  | true =>
    simp only [checkReward, kind, if_true, checkStakeReward] at reward
    split at reward
    · cases reward
    rename_i calculated calculation
    have within := net_le_stakeReward checked kind balanced
    have allowed := of_decide_eq_true reward
    have bounded : MintBounded env pool ledger pindex b :=
      ⟨by simp [kind], fun _ => ⟨calculated, calculation, by omega⟩⟩
    simp [bounded]
  | false =>
    simp only [checkReward, kind, Bool.false_eq_true, if_false] at reward
    have claimed := unclaimed_nonneg checked balanced reward
    have exactly : MintBounded env pool ledger pindex b ↔
        stakeExcess env pool (txView ledger.txdb) b.vtx.reverse ≤
          unclaimed env pool (txView ledger.txdb) pindex b := by
      have split := created_sub_consumed env pool (txView ledger.txdb) b.vtx.reverse
      constructor
      · intro bounded
        have within := bounded.work kind
        simp only [net, unclaimed] at within ⊢
        omega
      · intro within
        refine ⟨fun _ => ?_, by simp [kind]⟩
        simp only [net, unclaimed] at within ⊢
        omega
    refine ⟨fun ordinary => exactly.mpr ?_, fun _ => claimed, by simpa using exactly⟩
    rw [stakeExcess_eq_zero env pool (txView ledger.txdb) b.vtx.reverse
      fun tx member => ordinary tx (List.mem_reverse.mp member)]
    exact claimed

/-! ### Two blocks on a small chain

Both spend outputs of `sourceTx`; the second adds a coinstake-shaped transaction. -/

def sourceTx : CTransaction := toyTx [⟨7, 0⟩] [pay 1000000000, pay 1000000000]
def sourcePos : CDiskTxPos := ⟨1, 400, 500⟩
def sourceHash : Uint256 := getTxHash (toyEnv []) sourceTx

def modestBlock : CBlock := toyBlock 0 [
  toyTx [⟨0, 0xffffffff⟩] [pay 100000000],
  toyTx [⟨sourceHash, 0⟩] [pay 900000000]]

/-- The third transaction turns ten coins into the whole of `MAX_MONEY`. -/
def greedyBlock : CBlock := toyBlock 0 [
  toyTx [⟨0, 0xffffffff⟩] [pay 100000000],
  toyTx [⟨sourceHash, 0⟩] [pay 900000000],
  toyTx [⟨sourceHash, 1⟩] [⟨0, []⟩, pay 1000000000000000]]

def toyIndex (b : CBlock) : CBlockIndex :=
  .grow (.root ⟨0, 1, 8, toyBlock 0 []⟩) ⟨getHash (toyEnv []) b, 1, 1000, b⟩

def sourceEnv (b : CBlock) : Env := toyEnv ((sourceTx, sourcePos) :: blockTxs (toyIndex b) b)

def sourceLedger : Ledger :=
  { emptyLedger with
    txdb := ⟨fun key => if key = .tx sourceHash then
      some (.txIndex (newTxIndex sourcePos 2)) else none, none⟩ }

theorem onDisk_modestBlock : OnDisk (sourceEnv modestBlock) (toyIndex modestBlock) modestBlock :=
  ⟨by decide +kernel, by decide +kernel, by decide +kernel⟩

theorem mintBounded_modestBlock :
    MintBounded (sourceEnv modestBlock) emptyPool sourceLedger (toyIndex modestBlock)
      modestBlock := by
  obtain ⟨result, connect⟩ := Option.isSome_iff_exists.mp (show (connectBlock
    (sourceEnv modestBlock) 1432700000 emptyPool sourceLedger modestBlock
    (toyIndex modestBlock)).isSome = true by decide +kernel)
  exact (mintBounded_iff (sourceEnv modestBlock) 1432700000 1432700000 emptyPool sourceLedger
    result modestBlock (toyIndex modestBlock) onDisk_modestBlock (by decide +kernel)
    connect).1 (by decide +kernel)

/-- A proof-of-work block at height 1 that creates 9999990 coins out of nothing. -/
theorem greedyBlock_overmints :
    OnDisk (sourceEnv greedyBlock) (toyIndex greedyBlock) greedyBlock ∧
      checkBlock (sourceEnv greedyBlock) 1432700000 greedyBlock true true true = true ∧
      (connectBlock (sourceEnv greedyBlock) 1432700000 emptyPool sourceLedger greedyBlock
        (toyIndex greedyBlock)).isSome = true ∧
      ¬MintBounded (sourceEnv greedyBlock) emptyPool sourceLedger (toyIndex greedyBlock)
        greedyBlock := by
  refine ⟨⟨by decide +kernel, by decide +kernel, by decide +kernel⟩, by decide +kernel,
    by decide +kernel, fun bounded => ?_⟩
  have within := bounded.work (by decide +kernel)
  exact absurd within (by decide +kernel)

end SynergyLedger.Mint
