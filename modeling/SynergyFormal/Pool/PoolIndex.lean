import SynergyFormal.Pool.Conflicts

/-!
# Consistency of the memory pool index

Every call on the pool keeps `mapTx` and `mapNextTx` in step: a transaction enters
with links for its inputs, none of which was linked before, and leaves with them.
-/

set_option autoImplicit false

namespace SynergyPool.PoolIndex

open SynergyData
open Relation SynergyLib SynergyLib.Descent Transaction CheckTransaction Block
  SynergyLedger.ConnectBlock MemPool Removal Conflicts

/-! ## Accepting -/

variable {env : Env} {pool : CTxMemPool} {Known : CTransaction → Prop}

/-- A call of `accept` leaves the pool alone or adds a checked transaction that is new
and free of conflicts. -/
theorem accept_cases {tip : ChainTip} {tx : CTransaction} {fCheckInputs : Bool} :
    (accept env tip pool tx fCheckInputs).2 = pool ∨
      (Checked tx ∧ isCoinBase tx = false ∧ isCoinStake tx = false ∧
        pool.mapTx.lookup (getTxHash env tx) = none ∧ hasConflict pool tx = false ∧
        (fCheckInputs = true → BatchStore.contains tip.txdb (.tx (getTxHash env tx)) = false ∧
          checkPoolInputs env tip pool tx = .accepted) ∧
        (accept env tip pool tx fCheckInputs) =
          (.accepted, MemPool.addUnchecked pool (getTxHash env tx) tx)) := by
  unfold accept
  split_ifs with checks inputs
  · simp only [acceptable, Bool.and_eq_true, Bool.not_eq_true', inputs, Bool.true_and] at checks
    obtain ⟨⟨⟨⟨⟨⟨checked, notBase⟩, notStake⟩, _⟩, absent⟩, unindexed⟩, free⟩ := checks
    cases result : checkPoolInputs env tip pool tx with
    | rejected fMissingInputs => exact Or.inl rfl
    | accepted =>
      exact Or.inr ⟨checkTransaction_spec checked, notBase, notStake, by simpa using absent,
        free, fun _ => ⟨unindexed, rfl⟩, rfl⟩
  · simp only [acceptable, Bool.and_eq_true, Bool.not_eq_true'] at checks
    obtain ⟨⟨⟨⟨⟨⟨checked, notBase⟩, notStake⟩, _⟩, absent⟩, _⟩, free⟩ := checks
    exact Or.inr ⟨checkTransaction_spec checked, notBase, notStake, by simpa using absent,
      free, fun checkInputs => absurd checkInputs inputs, rfl⟩
  · exact Or.inl rfl

/-! ## Sequences of calls -/

/-- The transactions of a call belong to the known ones. -/
def CallKnown (Known : CTransaction → Prop) : PoolCall → Prop
  | .accept _ tx _ => Known tx
  | .remove tx _ => Known tx ∧ Addressable tx
  | .removeConflicts _ => True
  | .clear => True

structure PoolInvariant (env : Env) (Known : CTransaction → Prop) (pool : CTxMemPool) : Prop where
  consistent : Consistent env pool
  pooled : ∀ hash node, pool.mapTx.lookup hash = some node → Known node.tx ∧ Addressable node.tx

theorem PoolInvariant.without {rest : CTxMemPool} {D : Uint256 → Prop}
    (invariant : PoolInvariant env Known pool) (consistent : Consistent env rest)
    (part : Without pool D rest) : PoolInvariant env Known rest :=
  ⟨consistent, fun hash node present => invariant.pooled hash node (part.subset present).2⟩

theorem PoolInvariant.addUnchecked (invariant : PoolInvariant env Known pool) {tx : CTransaction}
    (known : Known tx) (checked : Checked tx) (absent : pool.mapTx.lookup (getTxHash env tx) = none)
    (free : hasConflict pool tx = false) :
    PoolInvariant env Known (MemPool.addUnchecked pool (getTxHash env tx) tx) := by
  refine ⟨consistent_addUnchecked invariant.consistent absent checked.distinct free, ?_⟩
  intro hash node present
  rcases (lookup_addUnchecked absent tx hash node).mp present with ⟨_, rfl⟩ | ⟨_, older⟩
  · exact ⟨known, checked.addressable⟩
  · exact invariant.pooled hash node older

theorem PoolInvariant.refers (invariant : PoolInvariant env Known pool)
    (distinct : CollisionFree env Known) {tx : CTransaction} (known : Known tx)
    (fits : Addressable tx) : Refers env pool (.own tx) (getTxHash env tx) tx := by
  refine ⟨rfl, rfl, fun node present => ?_⟩
  obtain ⟨nodeKnown, nodeFits⟩ := invariant.pooled _ node present
  exact distinct.same_parts nodeKnown known nodeFits fits
    (invariant.consistent.keyed _ node present)

/-- One call keeps the invariant, or does not return because of a cycle. -/
theorem call_outcome (distinct : CollisionFree env Known) (invariant : PoolInvariant env Known pool)
    {c : PoolCall} (known : CallKnown Known c) :
    Outcome (PoolInvariant env Known) (∃ hash, TransGen (Feeds pool) hash hash)
      (call env pool c) := by
  cases c with
  | accept tip tx fCheckInputs =>
    rcases accept_cases with
      same | ⟨checked, _, _, absent, free, _, added⟩
    · rw [call, same]
      exact .returned invariant
    · rw [call, added]
      exact .returned (invariant.addUnchecked known checked absent free)
  | remove tx fRecursive =>
    have refers := invariant.refers distinct known.1 known.2
    exact (remove_outcome invariant.consistent refers).mono
      (fun rest done => invariant.without done.1 done.2) id
  | removeConflicts tx =>
    exact (removeConflicts_spec invariant.consistent tx).mono
      (fun rest done => invariant.without done.1 done.2) id
  | clear => exact .returned ⟨consistent_empty, by simp [MemPool.clear]⟩

/-- `mapNextTx` links an outpoint to a pooled transaction exactly where it is spent, no
outpoint is spent twice, and every link leads to a live node. -/
structure IndexConsistent (env : Env) (pool : CTxMemPool) : Prop where
  links : ∀ o inpoint, pool.mapNextTx.lookup o = some inpoint ↔
    ∃ tx, (∃ node, pool.mapTx.lookup (getTxHash env tx) = some node ∧ node.ptx = inpoint.ptx ∧
      node.tx = tx) ∧ (tx.vin[inpoint.n]?).map CTxIn.prevout = some o
  disjoint : ∀ hash hash' node node' txin txin', pool.mapTx.lookup hash = some node →
    pool.mapTx.lookup hash' = some node' → txin ∈ node.tx.vin → txin' ∈ node'.tx.vin →
    txin.prevout = txin'.prevout → hash = hash'
  alive : ∀ o inpoint, pool.mapNextTx.lookup o = some inpoint →
    (deref pool inpoint.ptx).isSome = true

theorem indexConsistent (consistent : Consistent env pool) : IndexConsistent env pool := by
  refine ⟨fun o inpoint => (consistent.links o inpoint).trans ⟨?_, ?_⟩,
    fun _ _ _ _ _ _ => consistent.disjoint, ?_⟩
  · rintro ⟨hash, node, txin, present, address, inputAt, prevout⟩
    refine ⟨node.tx, ⟨node, ?_, address, rfl⟩, by rw [inputAt, Option.map_some, prevout]⟩
    rw [consistent.keyed hash node present, present]
  · rintro ⟨_, ⟨node, present, address, rfl⟩, input⟩
    obtain ⟨txin, inputAt, prevout⟩ := Option.map_eq_some_iff.mp input
    exact ⟨_, node, txin, present, address, inputAt, prevout⟩
  · intro o inpoint linked
    obtain ⟨hash, node, _, present, address, _⟩ := (consistent.links o inpoint).mp linked
    rw [(deref_eq_some_iff consistent).mpr ⟨hash, node, present, address, rfl⟩]
    rfl

theorem calls_outcome (distinct : CollisionFree env Known) {script : List PoolCall}
    (known : ∀ c ∈ script, CallKnown Known c) :
    ∀ start : CTxMemPool, PoolInvariant env Known start → Outcome (PoolInvariant env Known)
        (∃ before c after pool, script = before ++ c :: after ∧
          calls env start before = .ok pool ∧ ∃ hash, TransGen (Feeds pool) hash hash)
        (calls env start script) := by
  induction script with
  | nil => intro start invariant; exact .returned invariant
  | cons c script ih =>
    intro start invariant
    have first := call_outcome distinct invariant (known c List.mem_cons_self)
    rw [calls, List.foldlM_cons]
    cases result : call env start c with
    | error fault =>
      rw [result] at first
      cases first with
      | stuck cycle => exact .stuck ⟨[], c, script, start, rfl, rfl, cycle⟩
    | ok next =>
      rw [result] at first
      cases first with
      | returned entered =>
        refine (ih (fun d member => known d (List.mem_cons_of_mem _ member))
          next entered).mono (fun _ done => done) ?_
        rintro ⟨before, d, after, pool, rfl, run, cycle⟩
        refine ⟨c :: before, d, after, pool, rfl, ?_, cycle⟩
        rw [calls, List.foldlM_cons, result]
        exact run

/-- After every sequence of calls from the empty pool the index is consistent.  No call
reads an erased node, and a call returns unless the pool it starts from contains
transactions that spend each other in a cycle. -/
theorem index_consistent_of_calls (env : Env) (Known : CTransaction → Prop)
    (script : List PoolCall) (distinct : CollisionFree env Known)
    (known : ∀ c ∈ script, CallKnown Known c) :
    Outcome (IndexConsistent env)
      (∃ before c after pool, script = before ++ c :: after ∧
        calls env emptyMemPool before = .ok pool ∧ ∃ hash, TransGen (Feeds pool) hash hash)
      (calls env emptyMemPool script) :=
  (calls_outcome distinct known emptyMemPool ⟨consistent_empty, by simp [emptyMemPool]⟩).mono
    (fun _ done => indexConsistent done.consistent) id

def poolTip : ChainTip := ⟨emptyLedger.txdb, .root ⟨0, 1, 8, toyBlock 0 []⟩, 0⟩

def spenderTx : CTransaction := toyTx [⟨getTxHash (toyEnv []) (typedTx 0), 0⟩] [pay 90000000]

/-- Two transactions enter, a third that spends an input of the first does not, and
removing the first takes the second, which spends its output, along. -/
def typedCalls : List PoolCall :=
  [.accept poolTip (typedTx 0) false, .accept poolTip spenderTx false,
    .accept poolTip (typedTx 1) false, .remove (typedTx 0) true]

def TypedKnown (tx : CTransaction) : Prop := tx = typedTx 0 ∨ tx = typedTx 1 ∨ tx = spenderTx

theorem collisionFree_typedKnown : CollisionFree (toyEnv []) TypedKnown := by
  rintro a b (rfl | rfl | rfl) (rfl | rfl | rfl) <;> decide +kernel

theorem index_consistent_of_typedCalls : ∃ pool,
    calls (toyEnv []) emptyMemPool typedCalls = .ok pool ∧ IndexConsistent (toyEnv []) pool := by
  have returns : (calls (toyEnv []) emptyMemPool typedCalls).isOk = true := by decide +kernel
  have known : ∀ c ∈ typedCalls, CallKnown TypedKnown c := by
    simp [typedCalls, CallKnown, TypedKnown, addressable_typedTx]
  have outcome := index_consistent_of_calls (toyEnv []) TypedKnown typedCalls
    collisionFree_typedKnown known
  generalize calls (toyEnv []) emptyMemPool typedCalls = result at returns outcome
  cases outcome with
  | returned consistent => exact ⟨_, rfl, consistent⟩
  | stuck _ => cases returns

end SynergyPool.PoolIndex
