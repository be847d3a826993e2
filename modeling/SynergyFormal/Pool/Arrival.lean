import SynergyFormal.Pool.Orphans

/-!
# Arrival order

A family of transactions is delivered one `tx` message at a time.  A member that comes
before a parent waits as an orphan; the work queue retries it each time one of its parents
enters.  `Waiting` is the invariant: a delivered member is in the pool, or it is a stored
orphan with a parent of the family that is not in the pool yet.  Since the family has no
cycles, the least member that is still waiting after the last delivery would wait for one
that was never delivered.
-/

set_option autoImplicit false

namespace SynergyPool.Arrival

open SynergyLib SynergyData SynergyLedger
open Option BatchStore InverseIndex Transaction Block TxDB Inputs MemPool Orphans
open List hiding contains le_antisymm lookup not_lt

/-! ## Families -/

def addAll (env : Env) (pool : CTxMemPool) (members : List CTransaction) : CTxMemPool :=
  members.foldl (fun pool tx => addUnchecked pool (getTxHash env tx) tx) pool

/-- The child spends an output of the parent. -/
def Spends (env : Env) (child parent : CTransaction) : Prop :=
  getTxHash env parent ∈ prevHashes child

def ParentsIn (env : Env) (family members : List CTransaction) (tx : CTransaction) : Prop :=
  ∀ parent ∈ family, Spends env tx parent → parent ∈ members

/-- Members that may be in the pool together: each has its parents beside it. -/
structure Closed (env : Env) (family members : List CTransaction) : Prop where
  known : members ⊆ family
  nodup : members.Nodup
  parents : ∀ tx ∈ members, ParentsIn env family members tx

/-- Short transactions with different hashes and no common input, without a cycle of
spending, each of which the pool takes once its parents of the family are in. -/
structure Family (env : Env) (tip : ChainTip) (pool : CTxMemPool)
    (family : List CTransaction) : Prop where
  nodup : family.Nodup
  hashes : ∀ a ∈ family, ∀ b ∈ family, getTxHash env a = getTxHash env b → a = b
  short : ∀ tx ∈ family, serializeSize tx ≤ maxOrphanSize
  few : family.length ≤ maxOrphanTransactions
  apart : ∀ a ∈ family, ∀ b ∈ family, a ≠ b → ∀ x ∈ a.vin, ∀ y ∈ b.vin, x.prevout ≠ y.prevout
  acyclic : ∃ rank : CTransaction → Nat, ∀ parent ∈ family, ∀ child ∈ family,
    Spends env child parent → rank parent < rank child
  taken : ∀ tx ∈ family, ∀ members, Closed env family members → tx ∉ members →
    ParentsIn env family members tx → (accept env tip (addAll env pool members) tx true).1 = .accepted

/-! ## Pools with some members -/

variable {env : Env} {tx : CTransaction} {pool : CTxMemPool} {o : COutPoint}

variable {members : List CTransaction}

theorem addAll_append :
    addAll env pool (members ++ [tx]) = addUnchecked (addAll env pool members) (getTxHash env tx) tx :=
  List.foldl_append

theorem lookup_addAll_other {hash : Uint256} (other : ∀ tx ∈ members, getTxHash env tx ≠ hash) :
    ∀ pool, lookup (addAll env pool members) hash = lookup pool hash := by
  induction members with
  | nil => exact fun _ => rfl
  | cons tx members ih =>
    intro pool
    have different := other tx mem_cons_self
    rw [addAll, foldl_cons]
    refine (ih (fun later member => other later (mem_cons_of_mem _ member)) _).trans ?_
    rw [lookup_pool_addUnchecked, if_neg different.symm]

theorem lookup_addAll_mem
    (hashes : ∀ a ∈ members, ∀ b ∈ members, getTxHash env a = getTxHash env b → a = b)
    (member : tx ∈ members) :
    ∀ pool, lookup (addAll env pool members) (getTxHash env tx) = some tx := by
  induction members using reverseRecOn with
  | nil => cases member
  | append_singleton members last ih =>
    intro pool
    rw [addAll_append, lookup_pool_addUnchecked]
    split
    · rename_i same
      rw [hashes tx member last (by simp) same]
    · rename_i different
      have older : tx ∈ members := by
        rcases mem_append.mp member with older | new
        · exact older
        · rw [mem_singleton] at new
          exact absurd (congrArg (getTxHash env) new) different
      exact ih (fun a aIn b bIn => hashes a (mem_append_left _ aIn) b
        (mem_append_left _ bIn)) older pool

theorem linkInputs_eq_none {ptx : Nat} {vin : List CTxIn} :
    ∀ (k : Nat) (links : AList (fun _ : COutPoint => CInPoint)),
      ((vin.zipIdx k).foldl (fun links x => links.insert x.1.prevout ⟨ptx, x.2⟩) links).lookup o =
          none ↔
        links.lookup o = none ∧ ∀ txin ∈ vin, txin.prevout ≠ o := by
  induction vin with
  | nil => intro k links; simp
  | cons first vin ih =>
    intro k links
    rw [zipIdx_cons, foldl_cons, ih]
    by_cases same : o = first.prevout
    · subst same
      simp
    · simp [AList.lookup_insert_ne same, Ne.symm same]

theorem mapNextTx_addAll :
    ∀ pool : CTxMemPool, (addAll env pool members).mapNextTx.lookup o = none ↔
      pool.mapNextTx.lookup o = none ∧ ∀ tx ∈ members, ∀ txin ∈ tx.vin, txin.prevout ≠ o := by
  induction members with
  | nil => intro pool; simp [addAll]
  | cons tx members ih =>
    intro pool
    have first : (addUnchecked pool (getTxHash env tx) tx).mapNextTx.lookup o = none ↔
        pool.mapNextTx.lookup o = none ∧ ∀ txin ∈ tx.vin, txin.prevout ≠ o :=
      linkInputs_eq_none 0 pool.mapNextTx
    rw [addAll, foldl_cons, ← addAll, ih, first, forall_mem_cons]
    tauto

theorem hasConflict_iff : hasConflict pool tx = false ↔
      ∀ txin ∈ tx.vin, pool.mapNextTx.lookup txin.prevout = none := by
  simp [hasConflict]

/-! ## The three answers of the pool -/

section Answers
variable {tip : ChainTip} {family : List CTransaction}

theorem Family.acceptable_before (all : Family env tip pool family) (member : tx ∈ family) :
    ∃ earlier, tx ∉ earlier ∧ Closed env family earlier ∧
      acceptable env tip (addAll env pool earlier) tx true = true := by
  obtain ⟨rank, ranked⟩ := all.acyclic
  have closed : Closed env family (family.filter fun other => rank other < rank tx) := by
    refine ⟨fun other inside => mem_of_mem_filter inside, all.nodup.filter _,
      fun other inside parent known spends => ?_⟩
    rw [mem_filter, decide_eq_true_eq] at inside ⊢
    exact ⟨known, (ranked parent known other inside.1 spends).trans inside.2⟩
  have outside : tx ∉ family.filter fun other => rank other < rank tx := by simp
  have accepted := all.taken tx member _ closed outside fun parent known spends =>
    mem_filter.mpr ⟨known, decide_eq_true (ranked parent known tx member spends)⟩
  refine ⟨_, outside, closed, ?_⟩
  by_contra refused
  rw [accept, if_neg refused] at accepted
  cases accepted

theorem Family.new (all : Family env tip pool family) (member : tx ∈ family) :
    lookup pool (getTxHash env tx) = none ∧ contains tip.txdb (.tx (getTxHash env tx)) = false := by
  obtain ⟨earlier, outside, closed, checks⟩ := all.acceptable_before member
  have other : ∀ old ∈ earlier, getTxHash env old ≠ getTxHash env tx := fun old inside same =>
    outside (all.hashes old (closed.known inside) tx member same ▸ inside)
  simp only [acceptable, Bool.and_eq_true, Bool.not_eq_true', isSome_eq_false_iff,
    isNone_iff_eq_none, Bool.true_and] at checks
  refine ⟨?_, checks.1.2⟩
  rw [← lookup_addAll_other other, lookup, checks.1.1.2]
  rfl

section Closed
variable (all : Family env tip pool family) (closed : Closed env family members)
include all closed

theorem Family.lookup_none (member : tx ∈ family) (outside : tx ∉ members) :
    lookup (addAll env pool members) (getTxHash env tx) = none := by
  rw [lookup_addAll_other fun old inside same =>
    outside (all.hashes old (closed.known inside) tx member same ▸ inside)]
  exact (all.new member).1

theorem Family.acceptable (member : tx ∈ family) (outside : tx ∉ members) :
    acceptable env tip (addAll env pool members) tx true = true := by
  obtain ⟨earlier, _, known, checks⟩ := all.acceptable_before member
  have absent : (addAll env pool members).mapTx.lookup (getTxHash env tx) = none := by
    have missing := all.lookup_none closed member outside
    rwa [lookup, map_eq_none_iff] at missing
  simp only [MemPool.acceptable, Bool.and_eq_true, Bool.not_eq_true', isSome_eq_false_iff,
    isNone_iff_eq_none] at checks ⊢
  refine ⟨⟨⟨checks.1.1.1, absent⟩, checks.1.2⟩, ?_⟩
  have free := checks.2
  rw [hasConflict_iff] at free ⊢
  intro txin input
  rw [mapNextTx_addAll]
  refine ⟨((mapNextTx_addAll pool).mp (free txin input)).1, fun old inside other input' same => ?_⟩
  refine all.apart old (closed.known inside) tx member (fun equal => outside (equal ▸ inside))
    other input' txin input same

theorem Family.again (inside : tx ∈ members) :
    (accept env tip (addAll env pool members) tx true).1 = .rejected false := by
  have present := lookup_addAll_mem (fun a aIn b bIn =>
    all.hashes a (closed.known aIn) b (closed.known bIn)) inside pool
  have stored : ((addAll env pool members).mapTx.lookup (getTxHash env tx)).isSome = true := by
    rw [lookup, map_eq_some_iff] at present
    obtain ⟨node, found, _⟩ := present
    rw [found]
    rfl
  have refused : MemPool.acceptable env tip (addAll env pool members) tx true = false := by
    simp [MemPool.acceptable, stored]
  rw [accept, if_neg (by simp [refused])]

end Closed

theorem fetch_unavailable {txdb : CTxDB} {find : PoolLookup} {hash : Uint256}
    (unindexed : readTxIndex txdb hash = none) (unpooled : find hash = none) {vin : List CTxIn} :
    ∀ inputs result, inputs.lookup hash = none →
      vin.foldlM (fetchInput env txdb find ∅ false false) inputs = some result →
      ∀ txin ∈ vin, txin.prevout.hash ≠ hash := by
  induction vin with
  | nil =>
    intro inputs result _ _ txin member
    cases member
  | cons first vin ih =>
    intro inputs result absent success
    rw [foldlM_cons, bind_eq_bind] at success
    obtain ⟨middle, one, more⟩ := bind_eq_some_iff.mp success
    have different : first.prevout.hash ≠ hash := by
      intro same
      rw [← same] at absent unindexed unpooled
      simp [fetchInput, absent, fetchIndex, unindexed, unpooled] at one
    have still : middle.lookup hash = none := by
      simp only [fetchInput, Bool.or_self, Bool.false_eq_true, if_false] at one
      split at one
      · cases one
        exact absent
      · split at one <;>
        · obtain ⟨txPrev, _, rfl⟩ := map_eq_some_iff.mp one
          rw [AList.lookup_insert_ne different.symm, absent]
    exact forall_mem_cons.mpr ⟨different, ih middle result still more⟩

theorem Family.waits (all : Family env tip pool family) (closed : Closed env family members)
    {parent : CTransaction} (member : tx ∈ family) (outside : tx ∉ members)
    (known : parent ∈ family) (spends : Spends env tx parent) (missing : parent ∉ members) :
    (accept env tip (addAll env pool members) tx true).1 = .rejected true := by
  have checks := all.acceptable closed member outside
  have unindexed : readTxIndex tip.txdb (getTxHash env parent) = none := by
    rw [readTxIndex, read_of_not_contains (all.new known).2]
    rfl
  have unpooled := all.lookup_none closed known missing
  obtain ⟨txin, input, same⟩ := List.mem_map.mp spends
  have stops : tx.vin.foldlM (fetchInput env tip.txdb (lookup (addAll env pool members)) ∅ false
      false) ∅ = none := by
    rw [eq_none_iff_forall_ne_some]
    intro result success
    exact fetch_unavailable unindexed unpooled ∅ result rfl success txin input same
  have notBase : isCoinBase tx = false := by
    simp only [MemPool.acceptable, Bool.and_eq_true, Bool.not_eq_true'] at checks
    exact checks.1.1.1.1.1.2
  rw [accept, if_pos checks]
  simp [checkPoolInputs, fetchInputs, notBase, stops, missingInputs]

end Answers

/-! ## One message -/

section Message
variable {tip : ChainTip} {family delivered : List CTransaction}

theorem Closed.append (closed : Closed env family members) (member : tx ∈ family)
    (outside : tx ∉ members) (parents : ParentsIn env family members tx) :
    Closed env family (members ++ [tx]) := by
  refine ⟨fun other inside => ?_, nodup_append.mpr ⟨closed.nodup, nodup_singleton _,
    fun other inside last single same => outside (mem_singleton.mp single ▸ same ▸ inside)⟩,
    fun other inside parent known spends => mem_append_left _ ?_⟩
  · rcases mem_append.mp inside with older | new
    · exact closed.known older
    · exact mem_singleton.mp new ▸ member
  · rcases mem_append.mp inside with older | new
    · exact closed.parents other older parent known spends
    · exact parents parent known (mem_singleton.mp new ▸ spends)

/-- A parent of the family is not in the pool. -/
def Blocked (env : Env) (family members : List CTransaction) (tx : CTransaction) : Prop :=
  ∃ parent ∈ family, Spends env tx parent ∧ parent ∉ members

theorem parentsIn_of_not_blocked (free : ¬ Blocked env family members tx) :
    ParentsIn env family members tx := by
  intro parent known spends
  by_contra missing
  exact free ⟨parent, known, spends, missing⟩

/-- The work queue on the way: `members` are in the pool, the first `i` hashes of the queue
are done and so are the orphans of the next one except those in `rest`. -/
structure Retrying (env : Env) (pool : CTxMemPool) (family delivered : List CTransaction)
    (orphans : AList (fun _ : Uint256 => CTransaction)) (members : List CTransaction)
    (i : Nat) (rest : List Uint256) (work : Work) : Prop where
  closed : Closed env family members
  arrived : members ⊆ delivered
  mempool : work.node.mempool = addAll env pool members
  kept : work.node.mapOrphanTransactions = orphans
  reach : i ≤ work.vWorkQueue.length
  erased : ∀ hash ∈ work.vEraseQueue, ∃ tx ∈ members, getTxHash env tx = hash
  entered : ∀ hash tx, orphans.lookup hash = some tx → tx ∈ members → hash ∈ work.vEraseQueue
  pending : ∀ hash tx, orphans.lookup hash = some tx → tx ∉ members →
    Blocked env family members tx ∨ hash ∈ rest ∨ ∃ prev ∈ work.vWorkQueue.drop i, prev ∈ prevHashes tx

/-- The stored orphans are delivered members of the family under their hashes. -/
structure OrphansOf (env : Env) (family delivered : List CTransaction)
    (orphans : AList (fun _ : Uint256 => CTransaction)) : Prop where
  known : ∀ hash tx, orphans.lookup hash = some tx → tx ∈ family
  arrived : ∀ hash tx, orphans.lookup hash = some tx → tx ∈ delivered
  keyed : ∀ hash tx, orphans.lookup hash = some tx → getTxHash env tx = hash

section OrphansOf
variable (all : Family env tip pool family) {message : TxMessage} (chain : message.tip = tip)
  {orphans : AList (fun _ : Uint256 => CTransaction)}
  (stored : OrphansOf env family delivered orphans)
include all chain stored

variable {i : Nat}

theorem Retrying.visit {hash : Uint256} {rest : List Uint256} {work : Work}
    (found : orphans.lookup hash = some tx)
    (retrying : Retrying env pool family delivered orphans members i (hash :: rest) work) :
    ∃ more, members ⊆ more ∧
      Retrying env pool family delivered orphans more i rest (visitOrphan env message work hash) := by
  have here : work.node.mapOrphanTransactions.lookup hash = some tx := by rw [retrying.kept, found]
  have member := stored.known hash tx found
  have name := stored.keyed hash tx found
  have visit : visitOrphan env message work hash = settleOrphan env message hash
      (accept env tip (addAll env pool members) tx true) work := by
    rw [visitOrphan, here, chain, retrying.mempool]
  have settled : ∀ other otherTx, orphans.lookup other = some otherTx →
      otherTx ∉ members → otherTx ≠ tx → Blocked env family members otherTx ∨ other ∈ rest ∨
        ∃ prev ∈ work.vWorkQueue.drop i, prev ∈ prevHashes otherTx := by
    intro other otherTx present outside different
    rcases retrying.pending other otherTx present outside with blocked | inside | queued
    · exact Or.inl blocked
    · rcases mem_cons.mp inside with same | later
      · rw [same, found, some.injEq] at present
        exact absurd present.symm different
      · exact Or.inr (Or.inl later)
    · exact Or.inr (Or.inr queued)
  rw [visit]
  by_cases inside : tx ∈ members
  · -- it entered behind another parent: the pool has it already
    refine ⟨members, List.Subset.refl _, ?_⟩
    rw [settleOrphan, all.again retrying.closed inside]
    refine ⟨retrying.closed, retrying.arrived, retrying.mempool, retrying.kept, retrying.reach, ?_,
      ?_, ?_⟩
    · intro other queued
      rcases mem_append.mp queued with older | new
      · exact retrying.erased other older
      · exact ⟨tx, inside, by rw [name, mem_singleton.mp new]⟩
    · exact fun other otherTx present pooled =>
        mem_append_left _ (retrying.entered other otherTx present pooled)
    · exact fun other otherTx present outside => settled other otherTx present outside
        fun same => outside (same ▸ inside)
  · by_cases blocked : Blocked env family members tx
    · refine ⟨members, List.Subset.refl _, ?_⟩
      obtain ⟨parent, known, spends, missing⟩ := blocked
      rw [settleOrphan, all.waits retrying.closed member inside known spends missing]
      refine ⟨retrying.closed, retrying.arrived, retrying.mempool, retrying.kept, retrying.reach,
        retrying.erased, retrying.entered, fun other otherTx present outside => ?_⟩
      by_cases same : otherTx = tx
      · exact Or.inl (same ▸ ⟨parent, known, spends, missing⟩)
      · exact settled other otherTx present outside same
    · have parents := parentsIn_of_not_blocked blocked
      have taken := all.taken tx member members retrying.closed inside parents
      refine ⟨members ++ [tx], subset_append_left _ _, ?_⟩
      rw [settleOrphan, taken, (accept_accepted taken).2, ← addAll_append]
      have arrived : members ++ [tx] ⊆ delivered := append_subset.mpr
        ⟨retrying.arrived, fun other same => mem_singleton.mp same ▸ stored.arrived hash tx found⟩
      refine ⟨retrying.closed.append member inside parents, arrived, rfl, retrying.kept, ?_, ?_, ?_,
        ?_⟩
      · simp only [accepted, length_append]
        exact retrying.reach.trans (Nat.le_add_right _ _)
      · intro other queued
        rcases mem_append.mp queued with older | new
        · obtain ⟨old, pooled, same⟩ := retrying.erased other older
          exact ⟨old, mem_append_left _ pooled, same⟩
        · exact ⟨tx, mem_append_right _ (mem_singleton.mpr rfl), by rw [name, mem_singleton.mp new]⟩
      · intro other otherTx present pooled
        rcases mem_append.mp pooled with older | new
        · exact mem_append_left _ (retrying.entered other otherTx present older)
        · refine mem_append_right _ (mem_singleton.mpr ?_)
          rw [← stored.keyed other otherTx present, mem_singleton.mp new, name]
      · intro other otherTx present outside
        rw [mem_append, mem_singleton, not_or] at outside
        have queue : (accepted env message.tx (addAll env pool (members ++ [tx])) hash
            work).vWorkQueue.drop i = work.vWorkQueue.drop i ++ [hash] :=
          drop_append_of_le_length retrying.reach
        rw [queue]
        rcases settled other otherTx present outside.1 outside.2 with
          ⟨parent, known, spends, missing⟩ | later | ⟨prev, queued, mentioned⟩
        · by_cases same : parent = tx
          · refine Or.inr (Or.inr ⟨hash, mem_append_right _ (mem_singleton.mpr rfl), ?_⟩)
            rw [← name, ← same]
            exact spends
          · exact Or.inl ⟨parent, known, spends, by simp [missing, same]⟩
        · exact Or.inr (Or.inl later)
        · exact Or.inr (Or.inr ⟨prev, mem_append_left _ queued, mentioned⟩)

theorem Retrying.visitAll (hashes : List Uint256) : ∀ (members : List CTransaction) (work : Work),
      (∀ hash ∈ hashes, (orphans.lookup hash).isSome = true) →
      Retrying env pool family delivered orphans members i hashes work →
      ∃ more, members ⊆ more ∧ Retrying env pool family delivered orphans more i []
        (hashes.foldl (visitOrphan env message) work) := by
  induction hashes with
  | nil => exact fun members work _ retrying => ⟨members, List.Subset.refl _, retrying⟩
  | cons hash hashes ih =>
    intro members work known retrying
    obtain ⟨tx, found⟩ := isSome_iff_exists.mp (known hash mem_cons_self)
    obtain ⟨middle, grown, next⟩ := retrying.visit all chain stored found
    obtain ⟨more, further, last⟩ := ih middle _
      (fun other member => known other (mem_cons_of_mem _ member)) next
    exact ⟨more, List.Subset.trans grown further, last⟩

end OrphansOf

theorem Retrying.touch {orphans : AList (fun _ : Uint256 => CTransaction)} {i : Nat} {work : Work}
    {hashPrev : Uint256} (lists : Lists prevHashes orphans work.node.mapOrphanTransactionsByPrev)
    (retrying : Retrying env pool family delivered orphans members i [] work)
    (next : work.vWorkQueue[i]? = some hashPrev) :
    Retrying env pool family delivered orphans members (i + 1)
      (subscript work.node.mapOrphanTransactionsByPrev hashPrev) (touchPrev work hashPrev) := by
  obtain ⟨inside, here⟩ := List.getElem?_eq_some_iff.mp next
  refine ⟨retrying.closed, retrying.arrived, retrying.mempool, retrying.kept, inside,
    retrying.erased, retrying.entered, fun hash tx found outside => ?_⟩
  rcases retrying.pending hash tx found outside with blocked | none | ⟨prev, queued, mentioned⟩
  · exact Or.inl blocked
  · cases none
  · rw [drop_eq_getElem_cons inside, here] at queued
    rcases mem_cons.mp queued with rfl | later
    · exact Or.inr (Or.inl ((lists prev hash).mpr ⟨tx, found, mentioned⟩))
    · exact Or.inr (Or.inr ⟨prev, later, mentioned⟩)

theorem workLoop_retries (all : Family env tip pool family) {message : TxMessage}
    (chain : message.tip = tip) {start : TxNode} (sound : Sound env start)
    (stored : OrphansOf env family delivered start.mapOrphanTransactions) {fuel : Nat} :
    ∀ (i : Nat) (members : List CTransaction) (work final : Work),
      Worked env message start i work →
      Retrying env pool family delivered start.mapOrphanTransactions members i [] work →
      workLoop env message fuel i work = some final →
      ∃ more, members ⊆ more ∧ Retrying env pool family delivered start.mapOrphanTransactions more
        final.vWorkQueue.length [] final := by
  induction fuel with
  | zero =>
    intro i members work final worked retrying ended
    rw [workLoop] at ended
    split at ended
    · cases ended
    · rename_i done
      cases ended
      have whole : i = work.vWorkQueue.length := le_antisymm worked.reach (not_lt.mp done)
      exact ⟨members, List.Subset.refl _, whole ▸ retrying⟩
  | succ fuel ih =>
    intro i members work final worked retrying ended
    rw [workLoop] at ended
    cases next : work.vWorkQueue[i]? with
    | none =>
      rw [next] at ended
      cases ended
      have whole : i = work.vWorkQueue.length :=
        le_antisymm worked.reach (List.getElem?_eq_none_iff.mp next)
      exact ⟨members, List.Subset.refl _, whole ▸ retrying⟩
    | some hashPrev =>
      rw [next] at ended
      have lists : Lists prevHashes start.mapOrphanTransactions
          work.node.mapOrphanTransactionsByPrev := by
        intro key hash
        rw [worked.sets]
        exact sound.lists key hash
      obtain ⟨middle, grown, visited⟩ := Retrying.visitAll all chain stored _ members _
        (fun hash inside => by
          obtain ⟨tx, found, _⟩ := (lists hashPrev hash).mp inside
          rw [found]
          rfl) (retrying.touch lists next)
      obtain ⟨more, further, last⟩ := ih (i + 1) middle _ final
        (worked.visitPrev sound next) visited ended
      exact ⟨more, List.Subset.trans grown further, last⟩

end Message

/-! ## All deliveries -/

/-- After the deliveries so far: `members` are in the pool, the other delivered ones wait. -/
structure Waiting (env : Env) (pool : CTxMemPool) (family delivered members : List CTransaction)
    (node : TxNode) : Prop where
  sound : Sound env node
  closed : Closed env family members
  mempool : node.mempool = addAll env pool members
  orphans : ∀ hash tx, node.mapOrphanTransactions.lookup hash = some tx ↔
    tx ∈ delivered ∧ tx ∉ members ∧ getTxHash env tx = hash
  blocked : ∀ tx ∈ delivered, tx ∉ members → Blocked env family members tx
  arrived : members ⊆ delivered

section Deliveries
variable {tip : ChainTip} {family delivered : List CTransaction} {node : TxNode}
  {message : TxMessage}

theorem Waiting.orphansOf (waiting : Waiting env pool family delivered members node)
    (known : delivered ⊆ family) :
    OrphansOf env family (delivered ++ [tx]) node.mapOrphanTransactions :=
  ⟨fun hash other found => known ((waiting.orphans hash other).mp found).1,
    fun hash other found => mem_append_left _ ((waiting.orphans hash other).mp found).1,
    fun hash other found => ((waiting.orphans hash other).mp found).2.2⟩

/-- The queue starts with the transaction of the message, which may release the orphans that
spend it. -/
theorem Waiting.start (waiting : Waiting env pool family delivered members node)
    (new : message.tx ∉ delivered) (member : message.tx ∈ family)
    (parents : ParentsIn env family members message.tx)
    (taken : (accept env message.tip node.mempool message.tx true).1 = .accepted) :
    Retrying env pool family (delivered ++ [message.tx]) node.mapOrphanTransactions
      (members ++ [message.tx]) 0 [] (startWork env node message) := by
  have outside : message.tx ∉ members := fun inside => new (waiting.arrived inside)
  refine ⟨waiting.closed.append member outside parents, ?_, ?_, rfl, Nat.zero_le _, ?_, ?_, ?_⟩
  · exact append_subset.mpr ⟨fun tx inside => mem_append_left _ (waiting.arrived inside),
      subset_append_right _ _⟩
  · rw [addAll_append, ← waiting.mempool]
    exact (accept_accepted taken).2
  · intro hash queued
    exact ⟨message.tx, mem_append_right _ (mem_singleton.mpr rfl), (mem_singleton.mp queued).symm⟩
  · intro hash tx found inside
    obtain ⟨old, waits, _⟩ := (waiting.orphans hash tx).mp found
    rcases mem_append.mp inside with older | same
    · exact absurd older waits
    · exact absurd (mem_singleton.mp same ▸ old) new
  · intro hash tx found _
    obtain ⟨old, waits, _⟩ := (waiting.orphans hash tx).mp found
    obtain ⟨parent, known, spends, missing⟩ := waiting.blocked tx old waits
    by_cases same : parent = message.tx
    · refine Or.inr (Or.inr ⟨getTxHash env message.tx, mem_singleton.mpr rfl, ?_⟩)
      exact same ▸ spends
    · exact Or.inl ⟨parent, known, spends, by simp [missing, same]⟩

section Waiting
variable (all : Family env tip pool family) (chain : message.tip = tip)
  (waiting : Waiting env pool family delivered members node)
include all chain waiting

theorem Waiting.enter (known : delivered ⊆ family) (member : message.tx ∈ family)
    (new : message.tx ∉ delivered) (free : ¬ Blocked env family members message.tx) :
    ∃ next log more, processTx env node message = some (next, log) ∧
      Waiting env pool family (delivered ++ [message.tx]) more next := by
  have outside : message.tx ∉ members := fun inside => new (waiting.arrived inside)
  have parents := parentsIn_of_not_blocked free
  have taken : (accept env message.tip node.mempool message.tx true).1 = .accepted := by
    rw [chain, waiting.mempool]
    exact all.taken message.tx member members waiting.closed outside parents
  rcases processTx_cases message waiting.sound with ⟨_, work, ended, worked, call⟩ | ⟨refused, _⟩
  · obtain ⟨more, grown, last⟩ := workLoop_retries all chain waiting.sound (waiting.orphansOf known)
      0 _ _ work (worked_start taken) (waiting.start new member parents taken) ended
    obtain ⟨sound, mempool, _, _, lookup, _⟩ := foldl_eraseOrphanTx_spec work.node
      (worked.sound waiting.sound)
    have entered : message.tx ∈ more :=
      grown (mem_append_right _ (mem_singleton.mpr rfl))
    have delivers : ∀ tx ∈ more, tx ∈ family := fun tx inside => last.closed.known inside
    refine ⟨_, _, more, call, sound, last.closed, mempool.trans last.mempool, fun hash tx => ?_,
      fun tx inside waits => ?_, last.arrived⟩
    · rw [lookup, last.kept]
      constructor
      · intro found
        split at found
        · cases found
        · rename_i kept
          obtain ⟨old, _, name⟩ := (waiting.orphans hash tx).mp found
          exact ⟨mem_append_left _ old, fun inside => kept (last.entered hash tx found inside),
            name⟩
      · rintro ⟨inside, waits, name⟩
        have old : tx ∈ delivered := by
          rcases mem_append.mp inside with older | same
          · exact older
          · exact absurd (mem_singleton.mp same ▸ entered) waits
        have notErased : hash ∉ work.vEraseQueue := by
          intro queued
          obtain ⟨other, pooled, same⟩ := last.erased hash queued
          have equal := all.hashes other (delivers other pooled) tx (known old)
            (same.trans name.symm)
          exact waits (equal ▸ pooled)
        rw [if_neg notErased]
        exact (waiting.orphans hash tx).mpr ⟨old, fun early =>
          waits (grown (mem_append_left _ early)), name⟩
    · have old : tx ∈ delivered := by
        rcases mem_append.mp inside with older | same
        · exact older
        · exact absurd (mem_singleton.mp same ▸ entered) waits
      have found := (waiting.orphans (getTxHash env tx) tx).mpr
        ⟨old, fun early => waits (grown (mem_append_left _ early)), rfl⟩
      rcases last.pending _ tx found waits with blocked | none | ⟨prev, queued, _⟩
      · exact blocked
      · cases none
      · rw [drop_length] at queued
        cases queued
  · exact absurd taken refused

theorem Waiting.store (known : delivered ⊆ family) (distinct : (delivered ++ [message.tx]).Nodup)
    (member : message.tx ∈ family) (blocked : Blocked env family members message.tx) :
    ∃ next log, processTx env node message = some (next, log) ∧
      Waiting env pool family (delivered ++ [message.tx]) members next := by
  have new : message.tx ∉ delivered := fun inside =>
    (nodup_append.mp distinct).2.2 _ inside _ (mem_singleton.mpr rfl) rfl
  have outside : message.tx ∉ members := fun inside => new (waiting.arrived inside)
  have waits : (accept env message.tip node.mempool message.tx true).1 = .rejected true := by
    obtain ⟨parent, inside, spends, missing⟩ := blocked
    rw [chain, waiting.mempool]
    exact all.waits waiting.closed member outside inside spends missing
  have absent : node.mapOrphanTransactions.lookup (getTxHash env message.tx) = none := by
    rw [eq_none_iff_forall_ne_some]
    intro tx found
    obtain ⟨old, _, name⟩ := (waiting.orphans _ tx).mp found
    exact new (all.hashes tx (known old) message.tx member name ▸ old)
  have stores : addOrphanTx env node message.tx =
      storeOrphan node (getTxHash env message.tx) message.tx := by
    rw [addOrphanTx, absent, if_neg (by simp), if_neg (not_lt.mpr (all.short message.tx member))]
  have orphans : ∀ hash tx,
      (storeOrphan node (getTxHash env message.tx) message.tx).mapOrphanTransactions.lookup hash =
        some tx ↔ tx ∈ delivered ++ [message.tx] ∧ tx ∉ members ∧ getTxHash env tx = hash := by
    intro hash tx
    rw [storeOrphan, mem_append, mem_singleton]
    by_cases same : hash = getTxHash env message.tx
    · subst same
      rw [AList.lookup_insert, some.injEq]
      constructor
      · rintro rfl
        exact ⟨Or.inr rfl, outside, rfl⟩
      · rintro ⟨old | rfl, _, name⟩
        · exact (all.hashes tx (known old) message.tx member name).symm
        · rfl
    · rw [AList.lookup_insert_ne same, waiting.orphans hash tx]
      constructor
      · rintro ⟨old, rest⟩
        exact ⟨Or.inl old, rest⟩
      · rintro ⟨old | rfl, rest⟩
        · exact ⟨old, rest⟩
        · exact absurd rest.2.symm same
  have few : (storeOrphan node (getTxHash env message.tx)
      message.tx).mapOrphanTransactions.keys.length ≤ maxOrphanTransactions := by
    have inside : (storeOrphan node (getTxHash env message.tx)
        message.tx).mapOrphanTransactions.keys ⊆
        (delivered ++ [message.tx]).map (getTxHash env) := by
      intro hash stored
      obtain ⟨tx, found⟩ := isSome_iff_exists.mp (AList.lookup_isSome.mpr
        (AList.mem_keys.mpr stored))
      obtain ⟨arrived, _, name⟩ := (orphans hash tx).mp found
      exact List.mem_map.mpr ⟨tx, arrived, name⟩
    have bound := (List.Nodup.subperm (AList.keys_nodup _) inside).length_le
    have whole : delivered ++ [message.tx] ⊆ family := append_subset.mpr
      ⟨known, fun other same => mem_singleton.mp same ▸ member⟩
    have total := (List.Nodup.subperm distinct whole).length_le
    rw [length_map] at bound
    exact (bound.trans total).trans all.few
  refine ⟨storeOrphan node (getTxHash env message.tx) message.tx, [], ?_,
    waiting.sound.storeOrphan absent (all.short message.tx member), waiting.closed, waiting.mempool,
    orphans, fun tx inside notIn => ?_, fun tx inside => mem_append_left _ (waiting.arrived inside)⟩
  · rw [processTx_missing waits, stores, limitOrphanTxSize, evictOrphans_few few]
  · rcases mem_append.mp inside with old | same
    · exact waiting.blocked tx old notIn
    · exact mem_singleton.mp same ▸ blocked

theorem Waiting.deliver (known : delivered ++ [message.tx] ⊆ family)
    (distinct : (delivered ++ [message.tx]).Nodup) :
    ∃ next log more, processTx env node message = some (next, log) ∧
      Waiting env pool family (delivered ++ [message.tx]) more next := by
  obtain ⟨older, single⟩ := append_subset.mp known
  have member : message.tx ∈ family := single (mem_singleton.mpr rfl)
  by_cases blocked : Blocked env family members message.tx
  · obtain ⟨next, log, result, later⟩ := waiting.store all chain older distinct member blocked
    exact ⟨next, log, members, result, later⟩
  · exact waiting.enter all chain older member (fun inside =>
      (nodup_append.mp distinct).2.2 _ inside _ (mem_singleton.mpr rfl) rfl) blocked

end Waiting

theorem processAll_waiting (all : Family env tip pool family) {messages : List TxMessage}
    (chain : ∀ message ∈ messages, message.tip = tip) :
    ∀ (delivered members : List CTransaction) (node : TxNode),
      Waiting env pool family delivered members node →
      delivered ++ messages.map TxMessage.tx ⊆ family →
      (delivered ++ messages.map TxMessage.tx).Nodup →
      ∃ final log more, processAll env messages node = some (final, log) ∧
        Waiting env pool family (delivered ++ messages.map TxMessage.tx) more final := by
  induction messages with
  | nil =>
    intro delivered members node waiting _ _
    exact ⟨node, [], members, rfl, by simpa using waiting⟩
  | cons message rest ih =>
    intro delivered members node waiting known distinct
    rw [map_cons, append_cons] at known distinct ⊢
    obtain ⟨next, log, middle, result, later⟩ := waiting.deliver all
      (chain message mem_cons_self) (append_subset.mp known).1
      (nodup_append.mp distinct).1
    obtain ⟨final, more, last, run, end'⟩ := ih
      (fun other member => chain other (mem_cons_of_mem _ member)) _ middle next later known
      distinct
    exact ⟨final, log ++ more, last, by simp [processAll, result, run], end'⟩

/-- Once everything is delivered nothing waits: the first to wait, in the order of spending,
would have all its parents in the pool. -/
theorem Waiting.complete (all : Family env tip pool family)
    (waiting : Waiting env pool family delivered members node) (whole : family ⊆ delivered) :
    ∀ tx ∈ family, tx ∈ members := by
  obtain ⟨rank, ranked⟩ := all.acyclic
  suffices step : ∀ n, ∀ tx ∈ family, rank tx = n → tx ∈ members from
    fun tx known => step (rank tx) tx known rfl
  intro n
  induction n using Nat.strong_induction_on with
  | _ n ih =>
    intro tx known level
    by_contra waits
    obtain ⟨parent, inside, spends, missing⟩ := waiting.blocked tx (whole known) waits
    exact missing (ih (rank parent)
      (level ▸ ranked parent inside tx known spends) parent inside rfl)

end Deliveries

/-- For every order of delivery the whole family ends in the pool and none of it among the
orphans. -/
theorem arrival_order_irrelevant (env : Env) (tip : ChainTip) (start : TxNode)
    (family : List CTransaction) (messages : List TxMessage) (clear : NoOrphans start)
    (all : Family env tip start.mempool family) (chain : ∀ message ∈ messages, message.tip = tip)
    (order : (messages.map TxMessage.tx).Perm family) :
    ∃ final log, processAll env messages start = some (final, log) ∧
      ∀ tx ∈ family, lookup final.mempool (getTxHash env tx) = some tx ∧
        final.mapOrphanTransactions.lookup (getTxHash env tx) = none := by
  have first : Waiting env start.mempool family [] [] start := by
    refine ⟨clear.sound env, ⟨by simp, nodup_nil, by simp⟩, rfl, fun hash tx => ?_, by simp,
      by simp⟩
    rw [clear.orphans]
    simp
  obtain ⟨final, log, members, run, waiting⟩ := processAll_waiting all chain [] [] start first
    (by simpa using order.subset) (by simpa using order.nodup_iff.mpr all.nodup)
  rw [nil_append] at waiting
  have inside := waiting.complete all order.symm.subset
  refine ⟨final, log, run, fun tx known => ⟨?_, ?_⟩⟩
  · rw [waiting.mempool]
    exact lookup_addAll_mem (fun a aIn b bIn =>
      all.hashes a (waiting.closed.known aIn) b (waiting.closed.known bIn)) (inside tx known) _
  · rw [eq_none_iff_forall_ne_some]
    intro other found
    obtain ⟨arrived, waits, _⟩ := (waiting.orphans _ other).mp found
    exact waits (inside other (order.subset arrived))

theorem family_parentTx : Family fundedEnv fundedTip clearNode.mempool [parentTx, childTx] := by
  have spends : Spends fundedEnv childTx parentTx := by
    unfold Spends
    decide +kernel
  refine ⟨by decide +kernel, by decide +kernel, by decide +kernel, by decide, by decide +kernel,
    ⟨fun tx => if tx = childTx then 1 else 0, ?_⟩, fun tx member members closed outside parents => ?_⟩
  · unfold Spends
    decide +kernel
  · have cases : ∀ other ∈ members, other = parentTx ∨ other = childTx := by
      intro other inside
      simpa using closed.known inside
    rcases (by simpa using member : tx = parentTx ∨ tx = childTx) with rfl | rfl
    · have none : members = [] := by
        refine eq_nil_iff_forall_not_mem.mpr fun other inside => ?_
        rcases cases other inside with rfl | rfl
        · exact outside inside
        · exact outside (closed.parents childTx inside parentTx (by simp) spends)
      rw [none]
      decide +kernel
    · have parent : parentTx ∈ members := parents parentTx (by simp) spends
      have only : members = [parentTx] := by
        refine perm_singleton.mp ((perm_ext_iff_of_nodup closed.nodup
          (nodup_singleton _)).mpr fun other => ?_)
        rw [mem_singleton]
        refine ⟨fun inside => (cases other inside).resolve_right fun same => outside (same ▸ inside),
          fun same => same ▸ parent⟩
      rw [only]
      decide +kernel

theorem arrival_order_irrelevant_childTx :
    ∃ final log, processAll fundedEnv [deliver childTx, deliver parentTx] clearNode =
        some (final, log) ∧
      ∀ tx ∈ [parentTx, childTx], lookup final.mempool (getTxHash fundedEnv tx) = some tx ∧
        final.mapOrphanTransactions.lookup (getTxHash fundedEnv tx) = none :=
  arrival_order_irrelevant fundedEnv fundedTip clearNode [parentTx, childTx]
    [deliver childTx, deliver parentTx] ⟨rfl, rfl⟩ family_parentTx
    (by simp [Orphans.deliver]) (List.Perm.swap _ _ _)

end SynergyPool.Arrival
