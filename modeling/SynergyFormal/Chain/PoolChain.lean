import SynergyFormal.Pool.FreeInputs
import SynergyFormal.Pool.PoolIndex
import SynergyFormal.Chain.BlockMap

/-!
# The memory pool beside the active chain

Pooled transactions are not in the active chain and spend no output the chain spends.
`accept` looks both up in the index.  A switch has two ways of restoring it: after
`Reorganize` the transactions of the new blocks are removed together with what conflicts
with them, while a block attached by `SetBestChainInner` only takes its own transactions
out, so that there nothing else in the pool may share an input with it.
-/

set_option autoImplicit false

namespace SynergyChain.PoolChain

open SynergyLib SynergyData SynergyLedger SynergyPool
open BatchStore SynergyLib.Tree OutputLedger Transaction CheckTransaction Block TxDB Inputs
  ConnectBlock SpentIndex SynergyPool MemPool Removal Conflicts PoolIndex FreeInputs BestChain
open SynergyChain.Switch SynergyChain.Core SynergyChain.BlockMap
open List hiding lookup

/-! ## Transactions beside a chain -/

def SharesInput (a b : CTransaction) : Prop :=
  ∃ txin ∈ a.vin, ∃ txin' ∈ b.vin, txin'.prevout = txin.prevout

structure Separate (env : Env) (tx : CTransaction) (x : PlacedTx) : Prop where
  hash : getTxHash env x.1 ≠ getTxHash env tx
  inputs : ¬SharesInput tx x.1

variable {env : Env} {Known Allowed : CTransaction → Prop} {pool rest : CTxMemPool}
  {tx : CTransaction} {chain : List PlacedTx}

theorem prevout_isNull_of_isCoinBase (base : isCoinBase tx = true) :
    ∀ txin ∈ tx.vin, txin.prevout.isNull = true := by
  intro txin member
  unfold isCoinBase at base
  split at base
  · rename_i only inputs
    rw [inputs, mem_singleton] at member
    subst member
    exact (Bool.and_eq_true_iff.mp base).1
  · cases base

theorem spends_of_shares {a b : CTransaction} (checked : Checked a) (ordinary : isCoinBase a = false)
    (shares : SharesInput a b) : ∃ o ∈ spends a, o ∈ spends b := by
  obtain ⟨txin, member, txin', member', same⟩ := shares
  have other : isCoinBase b = false := by
    rw [Bool.eq_false_iff]
    intro base
    have null := prevout_isNull_of_isCoinBase base txin' member'
    rw [same, checked.ordinary ordinary txin member] at null
    cases null
  refine ⟨outpoint txin.prevout, ?_, ?_⟩
  · simp only [spends, ordinary, Bool.false_eq_true, if_false]
    exact List.mem_map_of_mem member
  · simp only [spends, other, Bool.false_eq_true, if_false]
    exact List.mem_map.mpr ⟨txin', member', by rw [same]⟩

theorem separate_of_unspent (valid : Valid (shape env) nullPos CDiskTxPos.isNull chain)
    (checked : Checked tx) (ordinary : isCoinBase tx = false)
    (absent : canonical (shape env) nullPos chain (getTxHash env tx) = none)
    (unspent : ∀ txin ∈ tx.vin, Unspent (canonical (shape env) nullPos chain) txin.prevout) :
    ∀ x ∈ chain, Separate env tx x := by
  intro x member
  refine ⟨canonical_eq_none_iff.mp absent x member, fun shares => ?_⟩
  obtain ⟨o, spent, spentBy⟩ := spends_of_shares checked ordinary shares
  -- the chain has the transaction whose output it spends, so the index has its entry
  obtain ⟨y, indexed, named⟩ := valid.spent_mem x member o spentBy
  obtain ⟨entry, entryAt, _⟩ := valid.entry y indexed
  simp only [spends, ordinary, Bool.false_eq_true, if_false] at spent
  obtain ⟨txin, input, rfl⟩ := List.mem_map.mp spent
  rw [named] at entryAt
  obtain ⟨slot, slotAt, null⟩ := unspent txin input entry entryAt
  have used := (valid.slot nullPos_isNull _ entry _ slot entryAt slotAt).1.mpr ⟨x, member, spentBy⟩
  rw [null] at used
  cases used

theorem separate_of_newer {newer older : List PlacedTx}
    (valid : Valid (shape env) nullPos CDiskTxPos.isNull (newer ++ older)) {x : PlacedTx}
    (member : x ∈ newer) (checked : Checked x.1) (ordinary : isCoinBase x.1 = false) :
    ∀ y ∈ older, Separate env x.1 y := by
  intro y before
  have ids := pairwise_append.mp valid.txid_pairwise
  have outputs := pairwise_append.mp (valid.spends_pairwise nullPos_isNull)
  refine ⟨ids.2.2 x member y before, fun shares => ?_⟩
  obtain ⟨o, spent, spentBy⟩ := spends_of_shares checked ordinary shares
  exact outputs.2.2 x member y before o spent spentBy

/-! ## The pool -/

/-- The pool is in order, its transactions are among `Allowed` ones, and none meets the
chain to `tip`. -/
structure PoolBeside (env : Env) (Known Allowed : CTransaction → Prop) (tip : CBlockIndex)
    (pool : CTxMemPool) : Prop where
  invariant : PoolInvariant env Known pool
  allowed : ∀ hash node, pool.mapTx.lookup hash = some node → Allowed node.tx
  apart : ∀ hash node, pool.mapTx.lookup hash = some node →
    ∀ x ∈ chainTxs [] tip, Separate env node.tx x

variable {start : Ledger} {genesis record : BlockRecord} {ops : BlockOps}
  {Indexed : CBlockIndex → Prop} {next node : ChainState} {tip pindexNew : CBlockIndex}
variable (tree : BlockTree env genesis Indexed)
  (arrived : ∀ tip record, Indexed (.grow tip record) → Arrived Known (.grow tip record))
  (distinct : CollisionFree env Known) (first : Described env Known genesis [] start)

section Removing
variable (invariant : PoolInvariant env Known pool) (known : Known tx) (fits : Addressable tx)

include distinct invariant known fits in
theorem removeOne_spec : Outcome
      (fun rest => PoolInvariant env Known rest ∧ Without pool (· = getTxHash env tx) rest)
      (∃ h, Relation.TransGen (Feeds pool) h h) (removeOne env pool tx) := by
  have refers := invariant.refers distinct known fits
  refine (remove_outcome invariant.consistent refers).mono ?_ id
  rintro rest ⟨consistent, part⟩
  simp only [Bool.false_eq_true, if_false] at part
  exact ⟨invariant.without consistent part, part⟩

/-- Pool `rest` is part of `pool`. -/
def Part (pool rest : CTxMemPool) : Prop :=
  ∀ hash node, rest.mapTx.lookup hash = some node → pool.mapTx.lookup hash = some node

theorem part_of_without {D : Uint256 → Prop} (part : Without pool D rest) : Part pool rest :=
  fun _ _ present => (part.subset present).2

/-- What `SetBestChainInner` has taken out, and `Reorganize` with conflicts. -/
def Gone (env : Env) (tx : CTransaction) (pool : CTxMemPool) : Prop :=
  pool.mapTx.lookup (getTxHash env tx) = none

def GoneWithConflicts (env : Env) (tx : CTransaction) (pool : CTxMemPool) : Prop :=
  ∀ hash node, pool.mapTx.lookup hash = some node → hash ≠ getTxHash env tx ∧
    (SharesInput node.tx tx → operatorEq node.tx tx = true)

theorem removal_loop (step : CTxMemPool → CTransaction → Except Fault CTxMemPool)
    (Taken : CTransaction → CTxMemPool → Prop) {vtx : List CTransaction}
    (stays : ∀ {tx current next}, Part current next → Taken tx current → Taken tx next)
    (pass : ∀ {tx current}, tx ∈ vtx → PoolInvariant env Known current →
      Outcome (fun next => PoolInvariant env Known next ∧ Part current next ∧ Taken tx next) True
        (step current tx)) (invariant : PoolInvariant env Known pool)
    (run : vtx.foldlM step pool = .ok rest) :
    PoolInvariant env Known rest ∧ Part pool rest ∧ ∀ tx ∈ vtx, Taken tx rest := by
  have loop := Outcome.foldlM
    (fun done current => PoolInvariant env Known current ∧ Part pool current ∧
      ∀ tx ∈ done, Taken tx current) vtx
    (fun done tx current member holds => (pass member holds.1).mono
      (fun next ended => ⟨ended.1, fun hash node present =>
        holds.2.1 hash node (ended.2.1 hash node present), fun other inside => by
          rcases mem_cons.mp inside with rfl | earlier
          · exact ended.2.2
          · exact stays ended.2.1 (holds.2.2 other earlier)⟩) id)
    [] pool ⟨invariant, fun _ _ present => present, by simp⟩
  rw [run] at loop
  simpa using loop.done

section Addressable
include distinct invariant known fits

theorem removeOne_pass :
    Outcome (fun rest => PoolInvariant env Known rest ∧ Part pool rest ∧ Gone env tx rest) True
      (removeOne env pool tx) :=
  (removeOne_spec distinct invariant known fits).mono
    (fun _ ended => ⟨ended.1, part_of_without ended.2, ended.2.erased _ rfl⟩) fun _ => trivial

theorem removeWithConflicts_pass :
    Outcome (fun rest => PoolInvariant env Known rest ∧ Part pool rest ∧
      GoneWithConflicts env tx rest) True (removeWithConflicts env pool tx) := by
  have first := removeOne_spec distinct invariant known fits
  unfold removeWithConflicts
  generalize removeOne env pool tx = result at first
  cases first with
  | stuck cycle => exact .stuck trivial
  | @returned middle done =>
    obtain ⟨kept, without⟩ := done
    refine (removeConflicts_spec kept.consistent tx).mono ?_ fun _ => trivial
    rintro rest ⟨consistent, fewer⟩
    refine ⟨kept.without consistent fewer, fun hash node present =>
      (without.subset (fewer.subset present).2).2, ?_⟩
    intro hash node present
    obtain ⟨stays, inMiddle⟩ := fewer.subset present
    refine ⟨(without.subset inMiddle).1, fun shares => ?_⟩
    by_contra differs
    obtain ⟨txin, input, txin', input', same⟩ := shares
    exact stays ⟨hash, node, inMiddle, ⟨txin', input', txin, input, same.symm⟩,
      by simpa using differs, .refl⟩

end Addressable

theorem Gone.part (part : Part pool rest) (gone : Gone env tx pool) : Gone env tx rest := by
  unfold Gone at gone ⊢
  cases present : rest.mapTx.lookup (getTxHash env tx) with
  | none => rfl
  | some node =>
    rw [part _ node present] at gone
    cases gone

theorem GoneWithConflicts.part (part : Part pool rest) (gone : GoneWithConflicts env tx pool) :
    GoneWithConflicts env tx rest :=
  fun hash node present => gone hash node (part hash node present)

theorem resurrect_spec {tip : ChainTip} {txs : List CTransaction} (known : ∀ tx ∈ txs, Known tx) :
    ∀ {pool : CTxMemPool}, PoolInvariant env Known pool →
      PoolInvariant env Known (resurrect env tip pool txs) ∧
        ∀ hash node, (resurrect env tip pool txs).mapTx.lookup hash = some node →
          pool.mapTx.lookup hash = some node ∨ node.tx ∈ txs := by
  induction txs with
  | nil =>
    intro pool invariant
    exact ⟨invariant, fun _ _ present => Or.inl present⟩
  | cons tx txs ih =>
    intro pool invariant
    have rest := fun other later => known other (mem_cons_of_mem tx later)
    rcases accept_cases with same | ⟨checked, _, _, absent, free, _, added⟩
    · obtain ⟨kept, from_⟩ := ih rest invariant
      have unchanged : resurrect env tip pool (tx :: txs) = resurrect env tip pool txs := by
        rw [resurrect, foldl_cons, same, resurrect]
      rw [unchanged]
      exact ⟨kept, fun hash node present =>
        (from_ hash node present).imp_right (mem_cons_of_mem tx)⟩
    · have entered := invariant.addUnchecked (known tx mem_cons_self) checked absent free
      obtain ⟨kept, from_⟩ := ih rest entered
      have grown : resurrect env tip pool (tx :: txs) =
          resurrect env tip (addUnchecked pool (getTxHash env tx) tx) txs := by
        rw [resurrect, foldl_cons, added, resurrect]
      rw [grown]
      refine ⟨kept, fun hash node present => ?_⟩
      rcases from_ hash node present with before | later
      · rcases (lookup_addUnchecked absent tx hash node).mp before with ⟨_, rfl⟩ | ⟨_, older⟩
        · exact Or.inr mem_cons_self
        · exact Or.inl older
      · exact Or.inr (mem_cons_of_mem tx later)

end Removing

/-! ## One block, one reorganisation -/

include distinct in
/-- Attaching a block next to whose transactions the pool has no other spender of their
inputs. -/
theorem PoolBeside.attach (beside : PoolBeside env Known Allowed tip pool)
    (admitted : Admitted env Known (.grow tip record))
    (quiet : ∀ tx, Allowed tx → (∀ b ∈ record.block.vtx, getTxHash env b ≠ getTxHash env tx) →
      ∀ b ∈ record.block.vtx, ¬SharesInput tx b)
    (run : record.block.vtx.foldlM (removeOne env) pool = .ok rest) :
    PoolBeside env Known Allowed (.grow tip record) rest := by
  obtain ⟨invariant, part, gone⟩ := removal_loop (removeOne env) (Gone env) Gone.part
    (fun member holds => removeOne_pass distinct holds (admitted.known _ member)
      (admitted.checked.transactions _ member).addressable) beside.invariant run
  refine ⟨invariant, fun hash node present => beside.allowed hash node (part hash node present), ?_⟩
  intro hash node present x member
  have keyed := invariant.consistent.keyed hash node present
  have foreign : ∀ b ∈ record.block.vtx, getTxHash env b ≠ getTxHash env node.tx := by
    intro b listed same
    have absent := gone b listed
    rw [Gone, same, keyed, present] at absent
    cases absent
  rcases mem_append.mp member with here | before
  · have listed : x.1 ∈ record.block.vtx := mem_blockTxs (mem_reverse.mp here)
    exact ⟨foreign x.1 listed, quiet node.tx (beside.allowed hash node (part hash node present))
      foreign x.1 listed⟩
  · exact beside.apart hash node (part hash node present) x before

theorem mem_vResurrect {blocks : List CBlockIndex} (member : tx ∈ vResurrect env blocks) :
    ∃ p ∈ blocks, tx ∈ resurrectable env p := by
  obtain ⟨p, listed, inside⟩ := mem_flatMap.mp member
  exact ⟨p, mem_reverse.mp listed, inside⟩

theorem mem_resurrectable {p : CBlockIndex} (member : tx ∈ resurrectable env p) :
    tx ∈ (blockOf p).vtx ∧ isCoinBase tx = false := by
  obtain ⟨listed, kept⟩ := mem_filter.mp member
  simp only [Bool.and_eq_true, Bool.not_eq_true', Bool.or_eq_false_iff] at kept
  exact ⟨listed, kept.1.1⟩

/-- After the transactions of disconnected blocks came back, the pool is beside the chain
to the fork. -/
theorem PoolBeside.revive {pfork pindexBest : CBlockIndex} {tip : ChainTip}
    (fromBest : pfork ∈ path pindexBest) (beside : PoolBeside env Known Allowed pindexBest pool)
    (valid : Valid (shape env) nullPos CDiskTxPos.isNull (chainTxs [] pindexBest))
    (admitted : PathAdmitted env Known pindexBest)
    (revived : ∀ p ∈ vDisconnect pfork pindexBest, ∀ tx ∈ resurrectable env p, Allowed tx) :
    PoolBeside env Known Allowed pfork
      (resurrect env tip pool (vResurrect env (vDisconnect pfork pindexBest))) := by
  have blocks := admitted.above fromBest
  rw [chainTxs_above fromBest] at valid
  obtain ⟨invariant, origin⟩ := resurrect_spec
    (fun tx member => by
      obtain ⟨p, gone, inside⟩ := mem_vResurrect member
      exact (blocks p gone).known tx (mem_resurrectable inside).1) beside.invariant
  refine ⟨invariant, fun hash node present => ?_, fun hash node present x member => ?_⟩
  · rcases origin hash node present with older | back
    · exact beside.allowed hash node older
    · obtain ⟨p, gone, inside⟩ := mem_vResurrect back
      exact revived p gone node.tx inside
  · rcases origin hash node present with older | back
    · refine beside.apart hash node older x ?_
      rw [chainTxs_above fromBest]
      exact mem_append_right _ member
    · obtain ⟨p, gone, inside⟩ := mem_vResurrect back
      obtain ⟨listed, ordinary⟩ := mem_resurrectable inside
      obtain ⟨placed, placedIn, same⟩ : ∃ placed ∈ blockTxs p (blockOf p), placed.1 = node.tx :=
        List.mem_map.mp ((blockTxs_fst p (blockOf p)).symm ▸ listed)
      rw [← same] at ordinary listed ⊢
      exact separate_of_newer valid (mem_flatMap.mpr ⟨p, gone, mem_reverse.mpr placedIn⟩)
        ((blocks p gone).checked.transactions _ listed) ordinary x member

include distinct in
/-- Taking out the transactions of the new blocks with their conflicts puts the pool
beside the chain to the last of them, as long as `operator==` confuses none. -/
theorem PoolBeside.advance {pfork : CBlockIndex} (toNew : pfork ∈ path pindexNew)
    (beside : PoolBeside env Known Allowed pfork pool) (admitted : PathAdmitted env Known pindexNew)
    (told : ∀ p ∈ vConnect pfork pindexNew, ∀ b ∈ (blockOf p).vtx, ∀ tx, Allowed tx →
      operatorEq tx b = true → getTxHash env tx = getTxHash env b)
    (run : (vDelete (vConnect pfork pindexNew)).foldlM (removeWithConflicts env) pool = .ok rest) :
    PoolBeside env Known Allowed pindexNew rest := by
  have blocks := admitted.above toNew
  obtain ⟨invariant, part, gone⟩ := removal_loop (removeWithConflicts env)
    (GoneWithConflicts env) GoneWithConflicts.part (fun {tx _} member holds => by
      obtain ⟨p, listed, inside⟩ := mem_flatMap.mp member
      have block := blocks p (mem_reverse.mp listed)
      exact removeWithConflicts_pass distinct holds (block.known tx inside)
        (block.checked.transactions tx inside).addressable) beside.invariant run
  refine ⟨invariant, fun hash node present => beside.allowed hash node (part hash node present), ?_⟩
  intro hash node present x member
  have older := part hash node present
  rw [chainTxs_above toNew] at member
  rcases mem_append.mp member with new | before
  · obtain ⟨p, above, here⟩ := mem_flatMap.mp new
    have listed : x.1 ∈ (blockOf p).vtx := mem_blockTxs (mem_reverse.mp here)
    have inside : p ∈ vConnect pfork pindexNew := mem_reverse.mpr above
    obtain ⟨different, equal⟩ := gone x.1 (mem_flatMap.mpr ⟨p, inside, listed⟩) hash node present
    rw [← invariant.consistent.keyed hash node present] at different
    exact ⟨different.symm, fun shares => different
      (told p inside x.1 listed node.tx (beside.allowed hash node older) (equal shares))⟩
  · exact beside.apart hash node older x before

/-! ## One switch -/

/-- The blocks a call attaches one by one, and those `Reorganize` connects. -/
def attachedBlocks (node : ChainState) (pindexNew : CBlockIndex) : List CBlockIndex :=
  if (blockOf pindexNew).hashPrevBlock = node.hashBestChain then [pindexNew]
  else postponed node pindexNew

def reorganisedBlocks (node : ChainState) (pindexNew : CBlockIndex) : List CBlockIndex :=
  match findFork node.pindexBest (pindexIntermediate node pindexNew) with
  | none => []
  | some pfork => vConnect pfork (pindexIntermediate node pindexNew)

/-- In the pool, or in a block the call would disconnect. -/
def MayBePooled (env : Env) (node : ChainState) (pindexNew : CBlockIndex) (tx : CTransaction) :
    Prop :=
  (∃ hash pooled, node.mempool.mapTx.lookup hash = some pooled ∧ pooled.tx = tx) ∨
    ∃ pfork, findFork node.pindexBest (pindexIntermediate node pindexNew) = some pfork ∧
      ∃ p ∈ vDisconnect pfork node.pindexBest, tx ∈ resurrectable env p

/-- No transaction of the pool meets a block it would not be removed for. -/
structure NoConflict (env : Env) (node : ChainState) (pindexNew : CBlockIndex) : Prop where
  attached : ∀ p ∈ attachedBlocks node pindexNew, ∀ tx, MayBePooled env node pindexNew tx →
    (∀ b ∈ (blockOf p).vtx, getTxHash env b ≠ getTxHash env tx) →
    ∀ b ∈ (blockOf p).vtx, ¬SharesInput tx b
  reorganised : (blockOf pindexNew).hashPrevBlock ≠ node.hashBestChain →
    ∀ p ∈ reorganisedBlocks node pindexNew, ∀ b ∈ (blockOf p).vtx, ∀ tx,
      MayBePooled env node pindexNew tx → operatorEq tx b = true →
      getTxHash env tx = getTxHash env b

include distinct in
theorem inner_beside (moved : At (History env Known start genesis) (.grow tip record) next)
    (beside : PoolBeside env Known Allowed tip node.mempool)
    (quiet : ∀ tx, Allowed tx → (∀ b ∈ record.block.vtx, getTxHash env b ≠ getTxHash env tx) →
      ∀ b ∈ record.block.vtx, ¬SharesInput tx b)
    (result : InnerResult env ops (begun node) (.grow tip record) true next) :
    PoolBeside env Known Allowed (.grow tip record) next.mempool := by
  cases result with
  | attached connects commits cleared =>
    exact beside.attach distinct (history_admitted moved.connected).2 quiet cleared

include distinct first in
theorem reorganize_beside (standing : At (History env Known start genesis) node.pindexBest node)
    (moved : At (History env Known start genesis) pindexNew next)
    (beside : PoolBeside env Known Allowed node.pindexBest node.mempool)
    (revived : ∀ pfork, findFork node.pindexBest pindexNew = some pfork →
      ∀ p ∈ vDisconnect pfork node.pindexBest, ∀ tx ∈ resurrectable env p, Allowed tx)
    (told : ∀ pfork, findFork node.pindexBest pindexNew = some pfork →
      ∀ p ∈ vConnect pfork pindexNew, ∀ b ∈ (blockOf p).vtx, ∀ tx, Allowed tx →
        operatorEq tx b = true → getTxHash env tx = getTxHash env b)
    (result : ReorganizeResult env ops (begun node) pindexNew true next) :
    PoolBeside env Known Allowed pindexNew next.mempool := by
  cases result with
  | @switched pfork ledger pool forks run commits cleared =>
    obtain ⟨fromBest, toNew⟩ := findFork_mem pindexNew pfork forks
    obtain ⟨valid, _⟩ := history_canonical distinct first standing.connected
    exact (beside.revive fromBest valid (history_admitted standing.connected)
      (revived pfork forks)).advance distinct toNew (history_admitted moved.connected)
      (told pfork forks) cleared

include tree distinct first in
theorem set_beside (lawful : LawfulOps ops)
    (tracks : Tracks ops Indexed (History env Known start genesis)) (best : Indexed node.pindexBest)
    (member : Indexed pindexNew)
    (origin : pindexNew = .root genesis → genesis.block.hashPrevBlock ≠ node.hashBestChain)
    (settled : Settled (History env Known start genesis) node)
    (invariant : PoolInvariant env Known node.mempool)
    (apart : ∀ hash pooled, node.mempool.mapTx.lookup hash = some pooled →
      ∀ x ∈ chainTxs [] node.pindexBest, Separate env pooled.tx x)
    (free : ∀ p ∈ postponed node pindexNew, ¬Blocked ops (postponedCalls env ops node pindexNew) p)
    (quiet : NoConflict env node pindexNew) (result : SetResult env ops node pindexNew true next) :
    PoolBeside env Known (MayBePooled env node pindexNew) pindexNew next.mempool := by
  have beside : PoolBeside env Known (MayBePooled env node pindexNew) node.pindexBest node.mempool :=
    ⟨invariant, fun hash pooled present => Or.inl ⟨hash, pooled, present, rfl⟩, apart⟩
  have blocks := quiet.attached
  cases result with
  | extended child inner =>
    obtain ⟨record, rfl⟩ := child_of_best tree settled.memory best member origin child
    obtain ⟨moved, _⟩ := settled.standing.inner_attached tree lawful tracks member inner
    rw [attachedBlocks, if_pos child] at blocks
    have attached := inner_beside distinct moved beside (blocks _ mem_cons_self) inner
    exact attached
  | @switched middle last branch reorganised secondary =>
    have inside := (postpone_spec (nChainTrust node.pindexBest) pindexNew).1
    obtain ⟨moved, _⟩ := settled.standing.reorganize_switched tree lawful tracks
      (tree.onPath member _ inside) reorganised
    rw [attachedBlocks, if_neg branch] at blocks
    have between : PoolBeside env Known (MayBePooled env node pindexNew)
        (pindexIntermediate node pindexNew) middle.mempool := by
      refine reorganize_beside distinct first settled.standing moved beside ?_ ?_ reorganised
      · intro pfork forks p gone tx back
        exact Or.inr ⟨pfork, forks, p, gone, back⟩
      · intro pfork forks p added
        refine quiet.reorganised branch p ?_
        rw [reorganisedBlocks, forks]
        exact added
    rw [postponedCalls_eq reorganised] at free
    have attached := At.secondary_carries
      (Q := fun tip state => PoolBeside env Known (MayBePooled env node pindexNew) tip state.mempool)
      tree lawful tracks member secondary inside (postponed_eq node pindexNew) free
      (fun listed indexed standing beside inner =>
        inner_beside distinct (standing.inner_attached tree lawful tracks indexed inner).1 beside
          (blocks _ listed) inner) moved between
    exact attached

theorem mempool_invalidChainFound : (invalidChainFound node pindexNew).mempool = node.mempool := by
  unfold invalidChainFound
  split_ifs <;> rfl

theorem mempool_of_failed (result : SetResult env ops node pindexNew false next) :
    next.mempool = node.mempool := by
  cases result with
  | notExtended child inner =>
    cases inner with
    | rejected fails => exact mempool_invalidChainFound
    | uncommitted connects fails => rfl
  | notSwitched branch reorganised =>
    rw [mempool_invalidChainFound]
    cases reorganised <;> rfl

/-! ## Runs -/

/-- States between calls, from an empty pool: transactions arrive through `accept` with
`fCheckInputs`, and chain switches meet no conflict. -/
inductive PoolRun (env : Env) (Known : CTransaction → Prop) (start : Ledger)
    (genesis : BlockRecord) (Indexed : CBlockIndex → Prop) : ChainState → Prop where
  | start {node : ChainState} (settled : Settled (History env Known start genesis) node)
      (best : Indexed node.pindexBest) (empty : node.mempool = emptyMemPool) :
      PoolRun env Known start genesis Indexed node
  | accept {node : ChainState} {tx : CTransaction}
      (past : PoolRun env Known start genesis Indexed node) (known : Known tx) :
      PoolRun env Known start genesis Indexed
        { node with mempool := (accept env (chainTip node) node.mempool tx true).2 }
  | failed {node next : ChainState} {pindexNew : CBlockIndex} {adjustedTime : CBlockIndex → Int}
      {checkStakeModifier : CBlockIndex → Bool}
      (past : PoolRun env Known start genesis Indexed node)
      (run : setBestChain env (coreOps env adjustedTime checkStakeModifier) node pindexNew =
        .ok (false, next)) : PoolRun env Known start genesis Indexed next
  | switched {node next : ChainState} {pindexNew : CBlockIndex} {adjustedTime : CBlockIndex → Int}
      {checkStakeModifier : CBlockIndex → Bool}
      (past : PoolRun env Known start genesis Indexed node) (member : Indexed pindexNew)
      (origin : pindexNew = .root genesis → genesis.block.hashPrevBlock ≠ node.hashBestChain)
      (connects : ∀ call ∈ postponedCalls env (coreOps env adjustedTime checkStakeModifier) node
        pindexNew, call.accepted (coreOps env adjustedTime checkStakeModifier) = true)
      (quiet : NoConflict env node pindexNew)
      (run : setBestChain env (coreOps env adjustedTime checkStakeModifier) node pindexNew =
        .ok (true, next)) : PoolRun env Known start genesis Indexed next

/-- No pooled transaction is in the active chain or spends an output the chain spends. -/
def PoolApart (env : Env) (node : ChainState) : Prop :=
  ∀ hash pooled, node.mempool.mapTx.lookup hash = some pooled →
    ∀ x ∈ chainTxs [] node.pindexBest, Separate env pooled.tx x

structure PoolSound (env : Env) (Known : CTransaction → Prop) (start : Ledger)
    (genesis : BlockRecord) (Indexed : CBlockIndex → Prop) (node : ChainState) : Prop where
  settled : Settled (History env Known start genesis) node
  best : Indexed node.pindexBest
  invariant : PoolInvariant env Known node.mempool
  apart : PoolApart env node

variable {checkStakeModifier : CBlockIndex → Bool} {adjustedTime : CBlockIndex → Int}

section Sound
variable (sound : PoolSound env Known start genesis Indexed node)
include sound

include distinct first in
theorem PoolSound.accept (known : Known tx) :
    PoolSound env Known start genesis Indexed
      { node with mempool := (MemPool.accept env (chainTip node) node.mempool tx true).2 } := by
  have standing := sound.settled.standing
  have settled : Settled (History env Known start genesis)
      { node with mempool := (MemPool.accept env (chainTip node) node.mempool tx true).2 } :=
    ⟨⟨standing.closed, standing.record, standing.connected, standing.forward⟩, sound.settled.memory⟩
  rcases accept_cases with
    same | ⟨checked, ordinary, _, absent, free, inputs, added⟩
  · refine ⟨settled, sound.best, ?_, ?_⟩
    · rw [same]
      exact sound.invariant
    · unfold PoolApart
      rw [same]
      exact sound.apart
  · obtain ⟨unindexed, accepted⟩ := inputs rfl
    obtain ⟨valid, index⟩ := history_canonical distinct first standing.connected
    have unspent := unspent_of_accepted ordinary accepted
    have missing : txView node.ledger.txdb (getTxHash env tx) = none := by
      have closed : (chainTip node).txdb.activeBatch = none := standing.closed
      rw [contains_closed closed, Option.isSome_eq_false_iff, Option.isNone_iff_eq_none]
        at unindexed
      exact congrArg asTxIndex unindexed
    have tip : txView (chainTip node).txdb = canonical (shape env) nullPos
      (chainTxs [] node.pindexBest) := index
    rw [tip] at unspent
    rw [index] at missing
    refine ⟨settled, sound.best, ?_, ?_⟩
    · rw [added]
      exact sound.invariant.addUnchecked known checked absent free
    · unfold PoolApart
      rw [added]
      intro hash pooled present
      rcases (lookup_addUnchecked absent tx hash pooled).mp present with ⟨_, rfl⟩ | ⟨_, older⟩
      · exact separate_of_unspent valid checked ordinary missing unspent
      · exact sound.apart hash pooled older

include tree arrived distinct first in
theorem PoolSound.switched (member : Indexed pindexNew)
    (origin : pindexNew = .root genesis → genesis.block.hashPrevBlock ≠ node.hashBestChain)
    (connects : ∀ call ∈ postponedCalls env (coreOps env adjustedTime checkStakeModifier) node
      pindexNew, call.accepted (coreOps env adjustedTime checkStakeModifier) = true)
    (quiet : NoConflict env node pindexNew)
    (run : setBestChain env (coreOps env adjustedTime checkStakeModifier) node pindexNew =
      .ok (true, next)) :
    PoolSound env Known start genesis Indexed next := by
  have lawful := lawful_coreOps env adjustedTime checkStakeModifier
  have tracks := tracks_history env start genesis adjustedTime checkStakeModifier arrived
  have free : ∀ p ∈ postponed node pindexNew, ¬Blocked (coreOps env adjustedTime checkStakeModifier)
      (postponedCalls env (coreOps env adjustedTime checkStakeModifier) node pindexNew) p :=
    fun _ _ => not_blocked rfl rfl fun call made _ => connects call made
  have result := setResult run
  have beside := set_beside tree distinct first lawful tracks sound.best member origin
    sound.settled sound.invariant sound.apart free quiet result
  obtain ⟨reached, _, last, rfl, standing, memory, ends⟩ :=
    reached_of_set tree lawful tracks sound.best member origin sound.settled result
  rcases ends with ⟨rfl, _⟩ | ⟨_, p, later, blocked⟩
  · exact ⟨⟨standing.newBest tracks, tree.hashed _ member⟩, member, beside.invariant, beside.apart⟩
  · exact absurd blocked (free p later)

include arrived in
theorem PoolSound.failed
    (run : setBestChain env (coreOps env adjustedTime checkStakeModifier) node pindexNew =
      .ok (false, next)) :
    PoolSound env Known start genesis Indexed next := by
  have tracks := tracks_history env start genesis adjustedTime checkStakeModifier arrived
  obtain ⟨standing, memory⟩ := sound.settled.failed
    (lawful_coreOps env adjustedTime checkStakeModifier) tracks (setResult run)
  have pool := mempool_of_failed (setResult run)
  refine ⟨⟨?_, ?_⟩, ?_, ?_, ?_⟩
  · rw [memory.pindexBest]
    exact standing
  · rw [memory.hashBestChain, memory.pindexBest, sound.settled.memory]
  · rw [memory.pindexBest]
    exact sound.best
  · rw [pool]
    exact sound.invariant
  · unfold PoolApart
    rw [pool, memory.pindexBest]
    exact sound.apart

end Sound

theorem pool_apart_from_chain (env : Env) (Known : CTransaction → Prop) (start : Ledger)
    (genesis : BlockRecord) (Indexed : CBlockIndex → Prop) (node : ChainState)
    (tree : BlockTree env genesis Indexed)
    (arrived : ∀ tip record, Indexed (.grow tip record) → Arrived Known (.grow tip record))
    (distinct : CollisionFree env Known) (first : Described env Known genesis [] start)
    (reached : PoolRun env Known start genesis Indexed node) : PoolApart env node := by
  have sound : PoolSound env Known start genesis Indexed node := by
    induction reached with
    | start settled best empty =>
      refine ⟨settled, best, ?_, ?_⟩
      · rw [empty]
        exact ⟨consistent_empty, by simp [emptyMemPool]⟩
      · intro hash pooled present
        rw [empty] at present
        cases present
    | accept past known ih => exact ih.accept distinct first known
    | failed past run ih => exact ih.failed arrived run
    | switched past member origin connects quiet run ih =>
      exact ih.switched tree arrived distinct first member origin connects quiet run
  exact sound.apart

/-! ### A pooled payment and a rival block

`saverTx` spends the first coinbase and is pooled; `rivalIndex` then extends the tip with
another transaction that spends it. -/

def plainState : Nat → ChainState
  | 0 => genesisState toyGenesis []
  | n + 1 =>
    match setBestChain plainEnv (toyOps plainEnv) (plainState n) (plainChain (n + 1)) with
    | .ok (_, next) => next
    | .error _ => plainState n

def saverState : ChainState :=
  { plainState 6 with
    mempool := (accept plainEnv (chainTip (plainState 6)) (plainState 6).mempool saverTx true).2 }

theorem plainState_extends : ∀ n < 6,
    ((setBestChain plainEnv (toyOps plainEnv) (plainState n) (plainChain (n + 1))).toOption.map
      Prod.fst) = some true ∧ (plainState n).pindexBest = plainChain n ∧
      (plainState n).hashBestChain = getBlockHash (plainChain n) ∧
      (plainState n).mempool.mapTx.entries = [] ∧
      ∀ call ∈ postponedCalls plainEnv (toyOps plainEnv) (plainState n) (plainChain (n + 1)),
        call.accepted (toyOps plainEnv) = true := by
  decide +kernel

theorem noConflict_of_empty (empty : node.mempool.mapTx.entries = [])
    (child : record.block.hashPrevBlock = node.hashBestChain) :
    NoConflict env node (.grow node.pindexBest record) := by
  have nothing : ∀ tx, ¬MayBePooled env node (.grow node.pindexBest record) tx := by
    rintro tx (⟨hash, pooled, present, _⟩ | ⟨pfork, forks, p, gone, _⟩)
    · have member := AList.mem_lookup_iff.mp present
      rw [empty] at member
      cases member
    · have whole : pindexIntermediate node (.grow node.pindexBest record) =
          .grow node.pindexBest record := by simp [pindexIntermediate, postpone]
      rw [whole, findFork_child] at forks
      cases forks
      rw [vDisconnect, above_self] at gone
      cases gone
  exact ⟨fun _ _ tx pooled => absurd pooled (nothing tx), fun branch => absurd child branch⟩

theorem poolRun_plainState : ∀ n < 7, PoolRun plainEnv PlainKnown (genesisState toyGenesis []).ledger
    toyGenesis (· ∈ plainBlocks) (plainState n) := by
  have listed : ∀ n < 7, plainChain n ∈ plainBlocks := fun n bound =>
    mem_append_left _ (mem_map_of_mem (mem_range.mpr bound))
  intro n bound
  induction n with
  | zero => exact .start (settled_genesis (.start rfl)) (listed 0 bound) rfl
  | succ n ih =>
    obtain ⟨returns, best, hashes, empty, connects⟩ := plainState_extends n (by omega)
    have past := ih (by omega)
    have shape : plainChain (n + 1) =
        .grow (plainState n).pindexBest (value (plainChain (n + 1))) := by
      rw [best]
      rfl
    cases call : setBestChain plainEnv (toyOps plainEnv) (plainState n) (plainChain (n + 1)) with
    | error fault =>
      rw [call] at returns
      cases returns
    | ok result =>
      obtain ⟨done, next⟩ := result
      rw [call] at returns
      obtain rfl : done = true := Option.some.inj returns
      have reached : plainState (n + 1) = next := by rw [plainState, call]
      rw [reached]
      refine past.switched (listed _ bound) (fun impossible => by cases impossible) connects ?_ call
      rw [shape]
      exact noConflict_of_empty empty hashes.symm

theorem pool_apart_from_saverTx :
    (accept plainEnv (chainTip (plainState 6)) (plainState 6).mempool saverTx true).1 = .accepted ∧
      PoolApart plainEnv saverState :=
  ⟨by decide +kernel, pool_apart_from_chain plainEnv PlainKnown (genesisState toyGenesis []).ledger
    toyGenesis (· ∈ plainBlocks) saverState blockTree_plainBlocks arrived_plainBlocks
    collisionFree_plainKnown ⟨rfl, Or.inl rfl⟩ (.accept (poolRun_plainState 6 (by decide))
      mem_cons_self)⟩

/-- After the block is attached the pool still has `saverTx`, whose input is spent. -/
theorem rivalIndex_leaves_conflict : PoolRun plainEnv PlainKnown
      (genesisState toyGenesis []).ledger toyGenesis (· ∈ plainBlocks) saverState ∧ ∃ next,
    setBestChain plainEnv (toyOps plainEnv) saverState rivalIndex = .ok (true, next) ∧
      lookup next.mempool (getTxHash plainEnv saverTx) = some saverTx ∧
      (∃ x ∈ chainTxs [] next.pindexBest, x.1 = rivalTx) ∧ ¬PoolApart plainEnv next := by
  obtain ⟨next, call, pooled, best⟩ : ∃ next,
      setBestChain plainEnv (toyOps plainEnv) saverState rivalIndex = .ok (true, next) ∧
        lookup next.mempool (getTxHash plainEnv saverTx) = some saverTx ∧
        next.pindexBest = rivalIndex := by decide +kernel
  refine ⟨.accept (poolRun_plainState 6 (by decide)) mem_cons_self, ?_⟩
  have listed : ∃ x ∈ chainTxs [] next.pindexBest, x.1 = rivalTx := by
    rw [best]
    exact ⟨_, mem_append_left _ mem_cons_self, rfl⟩
  refine ⟨next, call, pooled, listed, fun apart => ?_⟩
  obtain ⟨node, present, saver⟩ := Option.map_eq_some_iff.mp pooled
  obtain ⟨x, member, rival⟩ := listed
  apply (apart _ node present x member).inputs
  rw [saver, rival]
  exact ⟨_, mem_cons_self, _, mem_cons_self, rfl⟩

end SynergyChain.PoolChain
