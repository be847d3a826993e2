import SynergyFormal.Pool.Removal
import SynergyFormal.Ledger.ConnectBlock

/-!
# Removing the conflicts of a transaction

`removeConflicts(tx)` removes, for every input of `tx`, the pooled spender of that input
unless `operator==` takes it for `tx` itself.  That comparison leaves out
`nProdTypeID`, which the hash of a version-2 transaction covers: a conflicting
transaction that differs from `tx` there alone stays in the pool.
-/

set_option autoImplicit false

namespace SynergyPool.Conflicts

open SynergyData
open Relation SynergyLib.Descent Transaction Block SynergyLedger.ConnectBlock MemPool Removal

/-! ## Removing conflicts -/

/-- Gone on account of the listed inputs: at or below a pooled transaction that spends
one of them and that `operator==` tells apart from `tx`. -/
def DueTo (pool : CTxMemPool) (tx : CTransaction) (done : List CTxIn) (hash : Uint256) : Prop :=
  ∃ top node, pool.mapTx.lookup top = some node ∧
    (∃ txin ∈ done, ∃ txin' ∈ node.tx.vin, txin'.prevout = txin.prevout) ∧
    operatorEq node.tx tx = false ∧ ReflTransGen (Feeds pool) top hash

variable {pool : CTxMemPool} {tx : CTransaction} {done : List CTxIn} {hash : Uint256}

theorem closed_dueTo : Closed (Feeds pool) (DueTo pool tx done) := by
  rintro a b step ⟨top, node, present, spends, different, below⟩
  exact ⟨top, node, present, spends, different, below.tail step⟩

theorem dueTo_cons {txin : CTxIn} : DueTo pool tx (txin :: done) hash ↔ DueTo pool tx done hash ∨
      ∃ top node, pool.mapTx.lookup top = some node ∧
        (∃ txin' ∈ node.tx.vin, txin'.prevout = txin.prevout) ∧
        operatorEq node.tx tx = false ∧ ReflTransGen (Feeds pool) top hash := by
  constructor
  · rintro ⟨top, node, present, ⟨input, member, spends⟩, rest⟩
    rcases List.mem_cons.mp member with rfl | member
    · exact Or.inr ⟨top, node, present, spends, rest⟩
    · exact Or.inl ⟨top, node, present, ⟨input, member, spends⟩, rest⟩
  · rintro (⟨top, node, present, ⟨input, member, spends⟩, rest⟩ |
      ⟨top, node, present, spends, rest⟩)
    · exact ⟨top, node, present, ⟨input, List.mem_cons_of_mem _ member, spends⟩, rest⟩
    · exact ⟨top, node, present, ⟨txin, List.mem_cons_self, spends⟩, rest⟩

section Conflicts
variable {env : Env}

theorem removeConflict_spec (consistent : Consistent env pool) {current : CTxMemPool}
    (currentConsistent : Consistent env current) (part : Without pool (DueTo pool tx done) current)
    {txin : CTxIn} :
    Outcome (fun rest => Consistent env rest ∧ Without pool (DueTo pool tx (txin :: done)) rest)
      (∃ h, TransGen (Feeds pool) h h) (removeConflict env tx current txin) := by
  unfold removeConflict
  cases link : current.mapNextTx.lookup txin.prevout with
  | none =>
    -- every spender of this input is gone already, with all below it
    refine .returned ⟨currentConsistent, part.congr fun h => ?_⟩
    rw [dueTo_cons]
    refine ⟨Or.inl, ?_⟩
    rintro (inside | ⟨top, node, present, ⟨txin', member, spends⟩, different, below⟩)
    · exact inside
    · have gone : DueTo pool tx done top := by
        by_contra outside
        obtain ⟨n, inputAt⟩ := List.mem_iff_getElem?.mp member
        have linked := (currentConsistent.links txin.prevout ⟨node.ptx, n⟩).mpr
          ⟨top, node, txin', (part.kept top outside).trans present, rfl, inputAt, spends⟩
        rw [link] at linked
        cases linked
      induction below with
      | refl => exact gone
      | tail _ step ih =>
        exact closed_dueTo _ _ step ih
  | some inpoint =>
    obtain ⟨top, node, txin', topAt, address, inputAt, spends⟩ :=
      (currentConsistent.links _ inpoint).mp link
    obtain ⟨_, present⟩ := part.subset topAt
    have member := List.mem_of_getElem? inputAt
    have refers := refers_node currentConsistent topAt
    rw [address] at refers
    -- no other pooled transaction spends this input
    have only : ∀ other otherNode, pool.mapTx.lookup other = some otherNode →
        (∃ x ∈ otherNode.tx.vin, x.prevout = txin.prevout) → other = top ∧ otherNode = node := by
      rintro other otherNode otherAt ⟨x, xMember, xSpends⟩
      have same := consistent.disjoint otherAt present xMember member (xSpends.trans spends.symm)
      subst same
      exact ⟨rfl, Option.some.inj (otherAt.symm.trans present)⟩
    simp only [refers.reads]
    cases equal : operatorEq node.tx tx with
    | true =>
      refine .returned ⟨currentConsistent, part.congr fun h => ?_⟩
      rw [dueTo_cons]
      refine ⟨Or.inl, ?_⟩
      rintro (inside | ⟨other, otherNode, otherAt, shares, different, _⟩)
      · exact inside
      · obtain ⟨_, rfl⟩ := only other otherNode otherAt shares
        rw [equal] at different
        cases different
    | false =>
      refine (remove_outcome currentConsistent refers).mono ?_ ?_
      · rintro rest ⟨restConsistent, gone⟩
        simp only [if_true] at gone
        rw [part.feeds] at gone
        refine ⟨restConsistent, (part.trans gone).congr fun h => ?_⟩
        rw [dueTo_cons]
        constructor
        · rintro (inside | below)
          · exact Or.inl inside
          · exact Or.inr ⟨top, node, present, ⟨txin', member, spends⟩, equal, below_of_cut below⟩
        · rintro (inside | ⟨other, otherNode, otherAt, shares, _, below⟩)
          · exact Or.inl inside
          · obtain ⟨rfl, _⟩ := only other otherNode otherAt shares
            exact below_cut closed_dueTo below
      · rintro ⟨h, cycle⟩
        rw [part.feeds] at cycle
        exact ⟨h, cycle_of_cut cycle⟩

theorem removeConflicts_spec (consistent : Consistent env pool) (tx : CTransaction) :
    Outcome (fun rest => Consistent env rest ∧ Without pool (DueTo pool tx tx.vin) rest)
      (∃ h, TransGen (Feeds pool) h h) (removeConflicts env pool tx) := by
  have nothing : ∀ h, ¬DueTo pool tx [] h := by
    rintro h ⟨_, _, _, ⟨_, member, _⟩, _⟩
    cases member
  have loop := Outcome.foldlM
    (fun done current => Consistent env current ∧ Without pool (DueTo pool tx done) current)
    tx.vin (fun done txin current _ holds =>
      removeConflict_spec consistent holds.1 holds.2) [] pool
    ⟨consistent, without_nothing.congr fun h => ⟨False.elim, nothing h⟩⟩
  refine loop.mono (fun rest holds => ⟨holds.1, holds.2.congr fun h => ?_⟩) id
  simp [DueTo]

end Conflicts

/-! ## What is left -/

/-- A pooled transaction with another hash spends an input of `tx`. -/
def ConflictsWith (env : Env) (pool : CTxMemPool) (tx : CTransaction) (hash : Uint256) : Prop :=
  hash ≠ getTxHash env tx ∧ ∃ node, pool.mapTx.lookup hash = some node ∧
    ∃ txin ∈ tx.vin, ∃ txin' ∈ node.tx.vin, txin'.prevout = txin.prevout

/-- No conflict remains, nothing below a removed transaction remains, and all that is
neither is still there. -/
structure ConflictsRemoved (env : Env) (pool : CTxMemPool) (tx : CTransaction)
    (rest : CTxMemPool) : Prop where
  conflicts : ∀ hash, ¬ConflictsWith env rest tx hash
  descendants : ∀ hash below, (pool.mapTx.lookup hash).isSome = true →
    rest.mapTx.lookup hash = none → ReflTransGen (Feeds pool) hash below →
    rest.mapTx.lookup below = none
  others : ∀ hash, (¬∃ top, ConflictsWith env pool tx top ∧ ReflTransGen (Feeds pool) top hash) →
    rest.mapTx.lookup hash = pool.mapTx.lookup hash

/-- Among transactions of different hash, `operator==` misses a difference in
`nProdTypeID` and no other. -/
theorem operatorEq_iff_of_hash_ne (env : Env) (a b : CTransaction)
    (different : getTxHash env a ≠ getTxHash env b) :
    operatorEq a b = true ↔ a = { b with nProdTypeID := a.nProdTypeID } := by
  constructor
  · intro equal
    by_cases version : 2 ≤ a.nVersion
    · simp only [operatorEq, version, if_true, Bool.and_eq_true, beq_iff_eq] at equal
      obtain ⟨⟨⟨⟨⟨versions, times⟩, vins⟩, vouts⟩, locks⟩, comments⟩ := equal
      cases a
      cases b
      simp_all
    · -- a version-1 transaction is hashed without the fields that are not compared
      simp only [operatorEq, version, if_false, Bool.and_eq_true, beq_iff_eq] at equal
      obtain ⟨⟨⟨⟨versions, times⟩, vins⟩, vouts⟩, locks⟩ := equal
      refine absurd (congrArg env.hash ?_) different
      rw [versions] at version
      simp [serialize, version, versions, times, vins, vouts, locks]
  · intro same
    rw [same]
    by_cases version : 2 ≤ b.nVersion <;> simp [operatorEq, version]

theorem gone_iff {rest : CTxMemPool} (part : Without pool (DueTo pool tx tx.vin) rest)
    (present : (pool.mapTx.lookup hash).isSome = true) :
    rest.mapTx.lookup hash = none ↔ DueTo pool tx tx.vin hash := by
  refine ⟨fun gone => ?_, part.erased hash⟩
  by_contra outside
  rw [part.kept hash outside] at gone
  rw [gone] at present
  cases present

/-- `removeConflicts` returns unless pooled transactions spend each other in a cycle.
It removes every conflict, with what hangs on it and nothing else, exactly when no
conflicting transaction equals `tx` in all fields except `nProdTypeID`. -/
theorem removeConflicts_complete_iff (env : Env) (Known : CTransaction → Prop)
    (pool : CTxMemPool) (tx : CTransaction) (consistent : Consistent env pool)
    (distinct : CollisionFree env Known) (known : Known tx) (fits : Addressable tx)
    (pooled : ∀ hash node, pool.mapTx.lookup hash = some node →
      Known node.tx ∧ Addressable node.tx) :
    ((¬∃ hash, TransGen (Feeds pool) hash hash) → ∃ rest, removeConflicts env pool tx = .ok rest) ∧
    ∀ rest, removeConflicts env pool tx = .ok rest →
      (ConflictsRemoved env pool tx rest ↔
        ∀ hash node, ConflictsWith env pool tx hash → pool.mapTx.lookup hash = some node →
          node.tx ≠ { tx with nProdTypeID := node.tx.nProdTypeID }) := by
  have outcome := removeConflicts_spec consistent tx
  refine ⟨fun acyclic => ?_, fun rest returned => ?_⟩
  · generalize removeConflicts env pool tx = result at outcome
    cases outcome with
    | returned done => exact ⟨_, rfl⟩
    | stuck cycle => exact absurd cycle acyclic
  rw [returned] at outcome
  obtain ⟨_, part⟩ := outcome.done
  have told : ∀ hash node, ConflictsWith env pool tx hash → pool.mapTx.lookup hash = some node →
      (operatorEq node.tx tx = true ↔ node.tx = { tx with nProdTypeID := node.tx.nProdTypeID }) := by
    intro hash node conflict present
    refine operatorEq_iff_of_hash_ne env node.tx tx ?_
    rw [consistent.keyed hash node present]
    exact conflict.1
  constructor
  · intro removed hash node conflict present same
    -- the pooled copy is the only spender of its inputs, so nothing takes it along
    have equal := (told hash node conflict present).mpr same
    have kept : ¬DueTo pool tx tx.vin hash := by
      rintro ⟨top, other, topAt, ⟨txin, member, txin', member', spends⟩, differs, _⟩
      have inputs : node.tx.vin = tx.vin := by rw [same]
      have sameHash := consistent.disjoint topAt present member' (inputs ▸ member) spends
      subst sameHash
      rw [Option.some.inj (topAt.symm.trans present), equal] at differs
      cases differs
    refine removed.conflicts hash ⟨conflict.1, node, (part.kept hash kept).trans present, ?_⟩
    obtain ⟨_, other, otherAt, shares⟩ := conflict
    rw [← Option.some.inj (otherAt.symm.trans present)]
    exact shares
  · intro apart
    refine ⟨?_, ?_, ?_⟩
    · rintro hash ⟨different, node, stays, shares⟩
      obtain ⟨outside, present⟩ := part.subset stays
      have conflict : ConflictsWith env pool tx hash := ⟨different, node, present, shares⟩
      have differs : operatorEq node.tx tx = false := by
        rw [Bool.eq_false_iff]
        exact fun equal => apart hash node conflict present
          ((told hash node conflict present).mp equal)
      exact outside ⟨hash, node, present, shares, differs, .refl⟩
    · intro hash below present gone descends
      refine part.erased below ?_
      obtain ⟨top, node, topAt, shares, differs, above⟩ := (gone_iff part present).mp gone
      exact ⟨top, node, topAt, shares, differs, above.trans descends⟩
    · intro hash unrelated
      refine part.kept hash ?_
      rintro ⟨top, node, present, shares, differs, below⟩
      refine unrelated ⟨top, ⟨?_, node, present, shares⟩, below⟩
      rintro rfl
      -- a pooled transaction with the hash of `tx` has its bytes
      obtain ⟨nodeKnown, nodeFits⟩ := pooled _ node present
      have bytes := distinct node.tx tx nodeKnown known (consistent.keyed _ node present)
      rw [operatorEq_of_serialize nodeFits fits bytes] at differs
      cases differs

/-! ### Two transactions that differ in their productivity type -/

def typedTx (nProdTypeID : UInt32) : CTransaction where
  nVersion := 2
  nTime := 1432700000
  vin := [⟨⟨7, 0⟩, [], 0xffffffff⟩]
  vout := [pay 100000000]
  nLockTime := 0
  strTxComment := []
  nProdTypeID := nProdTypeID

def typedPool : CTxMemPool :=
  addUnchecked emptyMemPool (getTxHash (toyEnv []) (typedTx 1)) (typedTx 1)

theorem consistent_typedPool : Consistent (toyEnv []) typedPool :=
  consistent_addUnchecked consistent_empty rfl (by decide) rfl

theorem addressable_typedTx {nProdTypeID : UInt32} : Addressable (typedTx nProdTypeID) := by
  refine ⟨⟨?_, ?_⟩, ⟨?_, ?_⟩, ?_⟩ <;> simp [typedTx, pay]

theorem typedPool_cases {node : Node} (present : typedPool.mapTx.lookup hash = some node) :
    hash = getTxHash (toyEnv []) (typedTx 1) ∧ node = ⟨0, typedTx 1⟩ := by
  rcases (lookup_addUnchecked rfl (typedTx 1) hash node).mp present with stored | ⟨_, older⟩
  · exact stored
  · cases older

theorem collisionFree_typedTx :
    CollisionFree (toyEnv []) (fun tx => tx = typedTx 0 ∨ tx = typedTx 1) := by
  rintro a b (rfl | rfl) (rfl | rfl) <;> decide +kernel

theorem removeConflicts_complete_typedTx :
    removeConflicts (toyEnv []) typedPool (typedTx 0) = .ok typedPool ∧
      (ConflictsRemoved (toyEnv []) typedPool (typedTx 0) typedPool ↔
        ∀ hash node, ConflictsWith (toyEnv []) typedPool (typedTx 0) hash →
          typedPool.mapTx.lookup hash = some node →
          node.tx ≠ { typedTx 0 with nProdTypeID := node.tx.nProdTypeID }) :=
  ⟨rfl, (removeConflicts_complete_iff (toyEnv []) (fun tx => tx = typedTx 0 ∨ tx = typedTx 1)
    typedPool (typedTx 0) consistent_typedPool collisionFree_typedTx (Or.inl rfl)
    addressable_typedTx (fun hash node present => by
      obtain ⟨_, rfl⟩ := typedPool_cases present
      exact ⟨Or.inr rfl, addressable_typedTx⟩)).2 typedPool rfl⟩

/-- The pooled transaction spends the input of `typedTx 0` under another hash, and stays. -/
theorem typedTx_conflict_stays :
    Consistent (toyEnv []) typedPool ∧
      removeConflicts (toyEnv []) typedPool (typedTx 0) = .ok typedPool ∧
      ConflictsWith (toyEnv []) typedPool (typedTx 0) (getTxHash (toyEnv []) (typedTx 1)) ∧
      ¬ConflictsRemoved (toyEnv []) typedPool (typedTx 0) typedPool := by
  have conflict : ConflictsWith (toyEnv []) typedPool (typedTx 0)
      (getTxHash (toyEnv []) (typedTx 1)) :=
    ⟨by decide +kernel, ⟨0, typedTx 1⟩, (lookup_addUnchecked rfl _ _ _).mpr (Or.inl ⟨rfl, rfl⟩),
      ⟨⟨7, 0⟩, [], 0xffffffff⟩, by simp [typedTx], ⟨⟨7, 0⟩, [], 0xffffffff⟩, by simp [typedTx], rfl⟩
  exact ⟨consistent_typedPool, rfl, conflict, fun removed => removed.conflicts _ conflict⟩

end SynergyPool.Conflicts
