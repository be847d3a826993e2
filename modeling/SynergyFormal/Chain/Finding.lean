import SynergyFormal.Chain.AcceptBlock

/-!
# Finding blocks

The searches along the block tree: the fork and the two paths of `Reorganize`, and
`FindBlockByHeight` with its cached last result.
-/

set_option autoImplicit false

namespace SynergyChain.Finding

open SynergyData SynergyLedger
open SynergyLib.Tree SynergyLib.OutputLedger Transaction Block TxDB Inputs ConnectBlock SpentIndex
  BestChain Switch AcceptBlock

/-! ## The queues of Reorganize -/

/-- The loop of `Reorganize` that pushes to the front of `vResurrect`, over the disconnected
blocks from the tip down and the transactions of each from the last to the first. -/
def queueResurrect (env : Env) (gone : List CBlockIndex) : List CTransaction :=
  gone.foldl (fun queue pindex => (blockOf pindex).vtx.reverse.foldl (fun queue tx =>
    if !(isCoinBase tx || isCoinStake tx) && decide (getTotalBlocksEstimate env < nHeight pindex)
    then tx :: queue else queue) queue) []

variable {env : Env} {tip pfork genesis : CBlockIndex} {described : List PlacedTx} {height : Nat}

theorem queueResurrect_eq {gone : List CBlockIndex} :
    queueResurrect env gone = vResurrect env gone := by
  have block : ∀ (keep : CTransaction → Bool) (txs queue : List CTransaction),
      txs.reverse.foldl (fun queue tx => if keep tx then tx :: queue else queue) queue =
        txs.filter keep ++ queue := by
    intro keep txs queue
    induction txs with
    | nil => rfl
    | cons tx txs ih => by_cases kept : keep tx = true <;> simp [ih, kept]
  have blocks : ∀ queue : List CTransaction,
      gone.foldl (fun queue pindex => resurrectable env pindex ++ queue) queue =
        vResurrect env gone ++ queue := by
    induction gone with
    | nil => simp [vResurrect]
    | cons pindex gone ih => intro queue; simp [ih, vResurrect]
  simp only [queueResurrect, block]
  exact (blocks []).trans (List.append_nil _)

/-- Every transaction of the list stands after its parents in the list. -/
def ParentsFirst (env : Env) (txs : List CTransaction) : Prop :=
  ∀ (i j : Nat) (tx parent : CTransaction), txs[i]? = some tx → txs[j]? = some parent →
    (∃ txin ∈ tx.vin, txin.prevout.hash = getTxHash env parent) → j < i

theorem resurrected_sublist (member : pfork ∈ path tip) :
    (vResurrect env (vDisconnect pfork tip)).Sublist
      ((chainTxs described tip).map Prod.fst).reverse := by
  have blocks : ∀ gone : List CBlockIndex, (gone.flatMap (resurrectable env)).Sublist
      (gone.flatMap fun pindex => (blockOf pindex).vtx) := by
    intro gone
    induction gone with
    | nil => simp
    | cons pindex gone ih => exact List.filter_sublist.append ih
  have order : ((above pfork tip).flatMap fun p => (blockTxs p (blockOf p)).reverse).map Prod.fst =
      ((above pfork tip).reverse.flatMap fun p => (blockOf p).vtx).reverse := by
    simp [List.map_flatMap, List.reverse_flatMap, blockTxs_fst, Function.comp_def]
  rw [chainTxs_above member, List.map_append, order, List.reverse_append, List.reverse_reverse]
  exact (blocks _).trans (List.sublist_append_right _ _)

theorem parentsFirst_resurrected
    (valid : Valid (shape env) nullPos CDiskTxPos.isNull (chainTxs described tip))
    (member : pfork ∈ path tip) : ParentsFirst env (vResurrect env (vDisconnect pfork tip)) := by
  have inside : (vResurrect env (vDisconnect pfork tip)).Sublist
      ((chainTxs described tip).map Prod.fst).reverse := resurrected_sublist member
  obtain ⟨apart, own⟩ := valid.parents_pairwise
  have ordered : (vResurrect env (vDisconnect pfork tip)).Pairwise
      fun older newer => ∀ o ∈ spends older, o.1 ≠ getTxHash env newer :=
    (List.pairwise_reverse.mpr (List.pairwise_map.mpr apart)).sublist inside
  intro i j tx parent txAt parentAt ⟨txin, input, hash⟩
  have listed := List.mem_of_getElem? txAt
  have ordinary : isCoinBase tx = false := by grind [vResurrect, resurrectable]
  have spent : outpoint txin.prevout ∈ spends tx := by
    rw [spends, ordinary]
    exact List.mem_map_of_mem input
  by_contra late
  rcases Nat.lt_or_eq_of_le (not_lt.mp late) with before | rfl
  · obtain ⟨_, rfl⟩ := List.getElem?_eq_some_iff.mp txAt
    obtain ⟨_, rfl⟩ := List.getElem?_eq_some_iff.mp parentAt
    exact List.pairwise_iff_getElem.mp ordered i j _ _ before _ spent hash
  · obtain rfl := Option.some.inj (txAt.symm.trans parentAt)
    obtain ⟨x, onChain, rfl⟩ := List.mem_map.mp (List.mem_reverse.mp (inside.subset listed))
    exact own x onChain _ spent hash

/-- The fork search of `Reorganize` ends at the lowest common ancestor and its queues are the
two paths and the transactions of the left one in chain order. -/
theorem reorganize_paths (env : Env) (pindexBest pindexNew : CBlockIndex)
    (oneTree : rootOf pindexBest = rootOf pindexNew) :
    ∃ pfork, findFork pindexBest pindexNew = some pfork ∧
      (pfork ∈ path pindexBest ∧ pfork ∈ path pindexNew ∧
        ∀ p ∈ path pindexBest, p ∈ path pindexNew → p ∈ path pfork) ∧
      path pindexBest = path pfork ++ (vDisconnect pfork pindexBest).reverse ∧
      path pindexNew = path pfork ++ vConnect pfork pindexNew ∧
      queueResurrect env (vDisconnect pfork pindexBest) =
        (vDisconnect pfork pindexBest).reverse.flatMap (fun pindex =>
          (blockOf pindex).vtx.filter fun tx => !(isCoinBase tx || isCoinStake tx) &&
            decide (getTotalBlocksEstimate env < nHeight pindex)) ∧
      ∀ (Known : CTransaction → Prop) (start ledger : Ledger) (genesis : BlockRecord)
        (described : List PlacedTx), CollisionFree env Known →
        Described env Known genesis described start →
        History env Known start genesis ledger pindexBest →
        ParentsFirst env (queueResurrect env (vDisconnect pfork pindexBest)) := by
  obtain ⟨pfork, found⟩ := findFork_isSome pindexNew oneTree
  obtain ⟨onBest, onNew⟩ := findFork_mem pindexNew pfork found
  refine ⟨pfork, found, ⟨onBest, onNew, fun p => findFork_above _ _ found⟩, path_above onBest,
    path_above onNew, queueResurrect_eq, ?_⟩
  intro Known start ledger genesis described distinct first history
  rw [queueResurrect_eq]
  exact parentsFirst_resurrected (history_canonical distinct first history).1 onBest

/-- The switch from `saverIndex` to a child of `rivalIndex` resurrects a parent and its child. -/
theorem reorganize_paths_saverIndex :
    findFork saverIndex (toyChild rivalIndex [toyCoinbase 8 100000000]) = some (plainChain 6) ∧
      queueResurrect plainEnv (vDisconnect (plainChain 6) saverIndex) = [saverTx, childTx] ∧
      childTx.vin.map (·.prevout.hash) = [getTxHash plainEnv saverTx] ∧
      ParentsFirst plainEnv [saverTx, childTx] := by
  have forks : findFork saverIndex (toyChild rivalIndex [toyCoinbase 8 100000000]) =
      some (plainChain 6) := by decide +kernel
  have resurrected : queueResurrect plainEnv (vDisconnect (plainChain 6) saverIndex) =
      [saverTx, childTx] := by decide +kernel
  obtain ⟨pfork, found, _, _, _, _, ordered⟩ := reorganize_paths plainEnv saverIndex
    (toyChild rivalIndex [toyCoinbase 8 100000000]) (by decide +kernel)
  obtain rfl := Option.some.inj (found.symm.trans forks)
  refine ⟨forks, resurrected, by decide +kernel, resurrected ▸ ordered PlainKnown emptyLedger _
    toyGenesis [] collisionFree_plainKnown ⟨rfl, Or.inl rfl⟩
    (history_connected history_undoneLedger saverIndex_accepted)⟩

/-! ## FindBlockByHeight -/

structure Finder where
  chain : ChainState
  pblockindexFBBHLast : Option CBlockIndex

/-- The block the search starts from. -/
def startBlock (pindexGenesisBlock : CBlockIndex) (s : Finder) (height : Nat) : CBlockIndex :=
  let pblockindex := if (height : Int) < s.chain.ledger.nBestHeight.tdiv 2 then pindexGenesisBlock
    else s.chain.pindexBest
  match s.pblockindexFBBHLast with
  | none => pblockindex
  | some last =>
    if ((height : Int) - nHeight last).natAbs < ((height : Int) - nHeight pblockindex).natAbs
    then last else pblockindex

/-- The second loop; `none` when a link is null or the fuel is gone. -/
def climb (pnext : CBlockIndex → Option CBlockIndex) (height : Nat) :
    Nat → CBlockIndex → Option CBlockIndex
  | 0, _ => none
  | fuel + 1, pblockindex =>
    if nHeight pblockindex < height then (pnext pblockindex).bind (climb pnext height fuel)
    else some pblockindex

def findBlockByHeight (pindexGenesisBlock : CBlockIndex) (s : Finder) (height : Nat) :
    Option (CBlockIndex × Finder) :=
  (climb s.chain.ledger.pnext height (height + 1)
      (liftTo height (startBlock pindexGenesisBlock s height))).map fun pblockindex =>
    (pblockindex, { s with pblockindexFBBHLast := some pblockindex })

/-- The links from the blocks of the active chain lead along it. -/
def Linked (chain : ChainState) : Prop :=
  ∀ p ∈ path chain.pindexBest, chain.ledger.pnext p = links chain.pindexBest p

inductive FinderStep (pindexGenesisBlock : CBlockIndex) : Finder → Finder → Prop where
  | find {s t : Finder} {height : Nat} {pblockindex : CBlockIndex}
      (inRange : (height : Int) ≤ s.chain.ledger.nBestHeight)
      (found : findBlockByHeight pindexGenesisBlock s height = some (pblockindex, t)) :
      FinderStep pindexGenesisBlock s t
  | setBestChain {s : Finder} {env : Env} {ops : BlockOps} {pindexNew : CBlockIndex}
      {next : ChainState} (inTree : rootOf pindexNew = pindexGenesisBlock)
      (run : setBestChain env ops s.chain pindexNew = .ok (true, next)) (linked : Linked next) :
      FinderStep pindexGenesisBlock s ⟨next, none⟩

structure FinderInv (pindexGenesisBlock : CBlockIndex) (s : Finder) : Prop where
  rooted : rootOf s.chain.pindexBest = pindexGenesisBlock
  height : s.chain.ledger.nBestHeight = nHeight s.chain.pindexBest
  linked : Linked s.chain
  cached : ∀ p ∈ s.pblockindexFBBHLast, p ∈ path s.chain.pindexBest

theorem climb_links {pnext : CBlockIndex → Option CBlockIndex}
    (linked : ∀ p ∈ path tip, pnext p = links tip p) (inRange : height ≤ nHeight tip) :
    ∀ (fuel : Nat) (p : CBlockIndex), p ∈ path tip → nHeight p ≤ height →
      height < fuel + nHeight p → climb pnext height fuel p = some (liftTo height tip) := by
  intro fuel
  induction fuel with
  | zero => intro p _ low enough; omega
  | succ fuel ih =>
    intro p member low enough
    unfold climb
    split_ifs with below
    · rcases links_inside member with rfl | ⟨v, next, inside⟩
      · omega
      · rw [linked p member, next, Option.bind_some]
        exact ih _ inside (by simp only [nHeight, depth_grow] at below ⊢; omega)
          (by simp only [nHeight, depth_grow] at enough ⊢; omega)
    · have exact : depth p = height := by simp only [nHeight] at low below; omega
      rw [← exact, liftTo_depth member]

variable {s : Finder}

theorem FinderInv.find (inv : FinderInv genesis s)
    (inRange : (height : Int) ≤ s.chain.ledger.nBestHeight) :
    findBlockByHeight genesis s height = some (liftTo height s.chain.pindexBest,
      { s with pblockindexFBBHLast := some (liftTo height s.chain.pindexBest) }) := by
  have start : startBlock genesis s height ∈ path s.chain.pindexBest := by
    have first : genesis ∈ path s.chain.pindexBest := inv.rooted ▸ rootOf_mem_path
    have last := self_mem_path s.chain.pindexBest
    have cached := inv.cached
    grind [startBlock]
  rw [findBlockByHeight, climb_links inv.linked (by have := inv.height; omega) _ _
    (path_trans (liftTo_mem_path _ _) start) depth_liftTo_le (by omega)]
  rfl

theorem FinderInv.step {t : Finder} (inv : FinderInv genesis s) (step : FinderStep genesis s t) :
    FinderInv genesis t := by
  cases step with
  | find inRange found =>
    rw [inv.find inRange] at found
    cases found
    refine { inv with cached := ?_ }
    rintro p ⟨⟩
    exact liftTo_mem_path _ _
  | setBestChain inTree run linked =>
    cases setResult run <;> exact ⟨inTree, rfl, linked, by simp⟩

/-- However calls and switches interleave, `FindBlockByHeight` returns the block of the active
chain at the height. -/
theorem findBlockByHeight_correct (pindexGenesisBlock : CBlockIndex) (s t : Finder)
    (rooted : rootOf s.chain.pindexBest = pindexGenesisBlock)
    (heights : s.chain.ledger.nBestHeight = nHeight s.chain.pindexBest) (linked : Linked s.chain)
    (empty : s.pblockindexFBBHLast = none)
    (run : Relation.ReflTransGen (FinderStep pindexGenesisBlock) s t) (height : Nat)
    (inRange : (height : Int) ≤ t.chain.ledger.nBestHeight) :
    ∃ p u, findBlockByHeight pindexGenesisBlock t height = some (p, u) ∧
      p ∈ path t.chain.pindexBest ∧ nHeight p = height := by
  have inv : FinderInv pindexGenesisBlock t := by
    clear inRange
    induction run with
    | refl => exact ⟨rooted, heights, linked, by simp [empty]⟩
    | tail _ step ih => exact ih.step step
  have low : height ≤ depth t.chain.pindexBest := by
    have best := inv.height
    simp only [nHeight] at best
    omega
  exact ⟨_, _, inv.find inRange, liftTo_mem_path _ _, depth_liftTo low⟩

/-! ### A call on either side of a switch -/

def sideIndex : CBlockIndex :=
  toyChildIn 2 (toyChildIn 2 (.root toyGenesis) [toyCoinbase 1 90000000]) [toyCoinbase 2 100000000]

theorem find_cached {p : CBlockIndex}
    (found : (findBlockByHeight genesis s height).map Prod.fst = some p) :
    findBlockByHeight genesis s height = some (p, { s with pblockindexFBBHLast := some p }) := by
  unfold findBlockByHeight at found ⊢
  rw [Option.map_map] at found
  obtain ⟨q, climbed, rfl⟩ := Option.map_eq_some_iff.mp found
  rw [climbed]
  rfl

/-- The first call leaves a block in the cache that the switch disconnects, the second one a
block above the height of the third. -/
theorem findBlockByHeight_correct_sideIndex : ∃ first second,
    setBestChain plainEnv (toyOps plainEnv) (genesisState toyGenesis []) (plainChain 1) =
        .ok (true, first) ∧
      (findBlockByHeight (.root toyGenesis) ⟨first, none⟩ 1).map Prod.fst = some (plainChain 1) ∧
      setBestChain plainEnv (toyOps plainEnv) first sideIndex = .ok (true, second) ∧
      (findBlockByHeight (.root toyGenesis) ⟨second, none⟩ 2).map Prod.fst = some sideIndex ∧
      ∃ p u, findBlockByHeight (.root toyGenesis) ⟨second, some sideIndex⟩ 1 = some (p, u) ∧
        p ∈ path second.pindexBest ∧ nHeight p = 1 := by
  obtain ⟨first, extended, linked, low, early, second, switched, linked', high, late⟩ : ∃ first,
      setBestChain plainEnv (toyOps plainEnv) (genesisState toyGenesis []) (plainChain 1) =
          .ok (true, first) ∧
        (∀ p ∈ path first.pindexBest, first.ledger.pnext p = links first.pindexBest p) ∧
        1 ≤ first.ledger.nBestHeight ∧
        (findBlockByHeight (.root toyGenesis) ⟨first, none⟩ 1).map Prod.fst =
          some (plainChain 1) ∧ ∃ second,
        setBestChain plainEnv (toyOps plainEnv) first sideIndex = .ok (true, second) ∧
        (∀ p ∈ path second.pindexBest, second.ledger.pnext p = links second.pindexBest p) ∧
        2 ≤ second.ledger.nBestHeight ∧
        (findBlockByHeight (.root toyGenesis) ⟨second, none⟩ 2).map Prod.fst =
          some sideIndex := by decide +kernel
  have run : Relation.ReflTransGen (FinderStep (.root toyGenesis))
      ⟨genesisState toyGenesis [], none⟩ ⟨second, some sideIndex⟩ :=
    (((Relation.ReflTransGen.refl.tail (.setBestChain rfl extended linked)).tail
      (.find low (find_cached early))).tail (.setBestChain rfl switched linked')).tail
      (.find high (find_cached late))
  have start : Linked (genesisState toyGenesis []) := by
    intro p _
    simp [genesisState, insertIndex, writeIndex, withTxdb, links]
  exact ⟨first, second, extended, early, switched, late, findBlockByHeight_correct
    (.root toyGenesis) _ _ rfl rfl start rfl run 1 (le_trans (by decide) high)⟩

end SynergyChain.Finding
