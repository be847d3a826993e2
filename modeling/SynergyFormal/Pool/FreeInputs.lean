import SynergyFormal.Lib.Loop
import SynergyFormal.Pool.MemPool

/-!
# Inputs of an accepted transaction

`accept` runs `FetchInputs` and `ConnectInputs` against the database and the pool.  The
second loop of `ConnectInputs` marks the fetched entries as it goes and asks for a null
slot at every input, so an output that the index knows is unspent there.
-/

set_option autoImplicit false

namespace SynergyPool.FreeInputs

open SynergyData SynergyLedger
open SynergyLib.Loop Transaction Block TxDB Inputs MemPool

/-- Null slots of a fetched entry are null slots of the index. -/
def Covers (index : TxIndexMap) (inputs : MapPrevTx) : Prop :=
  ∀ hash txindex txPrev, inputs.lookup hash = some (txindex, txPrev) →
    ∀ entry, index hash = some entry → ∀ (n : Nat) slot, txindex.slots[n]? = some slot →
      slot.isNull = true → entry.slots[n]? = some slot

/-- If the index has the transaction, then it has the output, unspent. -/
def Unspent (index : TxIndexMap) (o : COutPoint) : Prop :=
  ∀ entry, index o.hash = some entry →
    ∃ slot, entry.slots[o.n.toNat]? = some slot ∧ slot.isNull = true

variable {env : Env} {tx : CTransaction}

section Loops
variable {index : TxIndexMap} {inputs : MapPrevTx}

theorem Covers.insert (covers : Covers index inputs) {hash : Uint256} {txindex : CTxIndex}
    (txPrev : CTransaction) (here : ∀ entry, index hash = some entry → ∀ (n : Nat) slot,
      txindex.slots[n]? = some slot → slot.isNull = true → entry.slots[n]? = some slot) :
    Covers index (inputs.insert hash (txindex, txPrev)) := by
  intro other otherIndex otherTx found
  rcases lookup_insert_cases found with ⟨rfl, ⟨⟩⟩ | ⟨_, old⟩
  · exact here
  · exact covers other otherIndex otherTx old

theorem covers_fetchInput {txdb : CTxDB} {pool : PoolLookup} {result : MapPrevTx} {txin : CTxIn}
    (covers : Covers (txView txdb) inputs)
    (success : fetchInput env txdb pool ∅ false false inputs txin = some result) :
    Covers (txView txdb) result := by
  have read : fetchIndex txdb ∅ false false txin.prevout.hash =
      txView txdb txin.prevout.hash := by simp [fetchIndex, readTxIndex_eq_txView]
  simp only [fetchInput, read, Bool.or_self, Bool.false_eq_true, if_false] at success
  split at success
  · cases success
    exact covers
  · split at success
    · rename_i txindex entryAt
      obtain ⟨txPrev, _, rfl⟩ := Option.map_eq_some_iff.mp success
      apply covers.insert
      intro entry present n slot slotAt _
      rw [← Option.some.inj (entryAt.symm.trans present)]
      exact slotAt
    · rename_i absent
      obtain ⟨txPrev, _, rfl⟩ := Option.map_eq_some_iff.mp success
      apply covers.insert
      intro entry present
      rw [absent] at present
      cases present

theorem covers_spendInput {posThisTx : CDiskTxPos} {nBestHeight : Int} {state next : SpendState}
    {txin : CTxIn} (placed : posThisTx.isNull = false) (covers : Covers index state.inputs)
    (success : spendInput env tx posThisTx nBestHeight false false state txin = some next) :
    Covers index next.inputs ∧ Unspent index txin.prevout := by
  simp only [spendInput, Bool.or_self, Bool.false_eq_true, if_false] at success
  split at success
  · cases success
  rename_i txindex txPrev found
  split at success
  · cases success
  rename_i slot slotAt
  split_ifs at success with used badSignature
  cases success
  have null : slot.isNull = true := by simpa using used
  have older := covers _ txindex txPrev found
  refine ⟨covers.insert txPrev fun entry present n later laterAt nullLater => ?_,
    fun entry present => ⟨slot, older entry present _ slot slotAt null, null⟩⟩
  rw [List.getElem?_set] at laterAt
  split_ifs at laterAt with same inRange
  · cases laterAt
    rw [placed] at nullLater
    cases nullLater
  · exact older entry present n later laterAt nullLater

end Loops

theorem covers_fetchInputs {txdb : CTxDB} {pool : PoolLookup} {inputs : MapPrevTx}
    (ordinary : isCoinBase tx = false)
    (success : fetchInputs env txdb pool ∅ false false tx = some inputs) :
    Covers (txView txdb) inputs := by
  simp only [fetchInputs, ordinary, Bool.false_eq_true, if_false] at success
  split at success
  · cases success
  rename_i found run
  split_ifs at success
  cases success
  exact (foldlM_rule (Covers (txView txdb)) (fun _ => True)
    (fun _ _ _ holds step => ⟨covers_fetchInput holds step, trivial⟩) tx.vin
    (by intro hash entry prev found; simp at found) run).1

theorem unspent_of_connectInputs {index : TxIndexMap} {inputs : MapPrevTx} {queue result : Queue}
    {posThisTx : CDiskTxPos} {pindexBlock : CBlockIndex} {nBestHeight : Int}
    (ordinary : isCoinBase tx = false) (placed : posThisTx.isNull = false)
    (covers : Covers index inputs)
    (success : connectInputs env tx inputs queue posThisTx pindexBlock nBestHeight false false =
      some result) : ∀ txin ∈ tx.vin, Unspent index txin.prevout := by
  simp only [connectInputs, ordinary, Bool.false_eq_true, if_false] at success
  split at success
  · cases success
  split at success
  · cases success
  rename_i state run
  exact (foldlM_rule (fun state : SpendState => Covers index state.inputs)
    (fun txin => Unspent index txin.prevout)
    (fun _ _ _ holds step => covers_spendInput placed holds step) tx.vin covers run).2

theorem unspent_of_accepted {tip : ChainTip} {pool : CTxMemPool} (ordinary : isCoinBase tx = false)
    (accepted : checkPoolInputs env tip pool tx = .accepted) :
    ∀ txin ∈ tx.vin, Unspent (txView tip.txdb) txin.prevout := by
  unfold checkPoolInputs at accepted
  split at accepted
  · cases accepted
  rename_i mapInputs fetch
  split at accepted
  · cases accepted
  split at accepted
  · split at accepted
    · cases accepted
    split at accepted
    · rename_i connects
      obtain ⟨queue, run⟩ := Option.isSome_iff_exists.mp connects
      exact unspent_of_connectInputs ordinary (by decide) (covers_fetchInputs ordinary fetch) run
    · cases accepted
  · cases accepted

end SynergyPool.FreeInputs
