import SynergyFormal.Chain.BlockMap
import SynergyFormal.Chain.Pointers

/-!
# The chain with the most trust wins

If the answers of `ConnectBlock` in a run are a function of the block and its path, the best
block is at all times one of greatest trust among the indexed blocks with an accepted path.

The step is short because of what the map already holds.  A block of the new branch that
beats the old tip and lies below the new block was indexed before; had its path been
accepted, it would have been the tip.  So a reorganisation that succeeds never stops
short of the new block, and nothing is left to connect after it.
-/

set_option autoImplicit false

namespace SynergyChain.Selection

open SynergyLib SynergyData SynergyLedger
open Session SynergyLib.Tree Transaction Block Inputs Wallet ConnectBlock SpentIndex SynergyPool.MemPool
  BestChain Switch SynergyChain.Core Pointers BlockMap

/-- Every block on the path after the genesis block is accepted. -/
def AcceptedPath (accepts : CBlockIndex → Bool) : CBlockIndex → Prop
  | .root _ => True
  | .grow p record => AcceptedPath accepts p ∧ accepts (.grow p record) = true

variable {accepts : CBlockIndex → Bool}

theorem acceptedPath_iff {pfork pindex : CBlockIndex} (member : pfork ∈ path pindex) :
    AcceptedPath accepts pindex ↔
      AcceptedPath accepts pfork ∧ ∀ p ∈ above pfork pindex, accepts p = true := by
  induction pindex, member using path_induction with
  | base => simp [above_self]
  | step p record below ih =>
    rw [AcceptedPath, ih, above_grow below, List.forall_mem_cons]
    tauto

/-! ## When the moves succeed -/

/-- A connected block can be disconnected. -/
def Undoes (ops : BlockOps) (Conn : Ledger → CBlockIndex → Prop) : Prop :=
  ∀ ledger tip record, Conn ledger (.grow tip record) →
    (ops.disconnectBlock ledger (.grow tip record)).isSome = true

variable {ops : BlockOps} {Conn : Ledger → CBlockIndex → Prop} {pindexNew : CBlockIndex}

section Moves
variable {Indexed : CBlockIndex → Prop} {pfork pindexBest : CBlockIndex} {ledger : Ledger}
  {pool : PoolLookup} (disk : DiskWorks ops)

theorem moveCalls_append (first second : List Move) :
    ∀ ledger : Ledger, moveCalls ops pool (first ++ second) ledger =
      moveCalls ops pool first ledger ++
        if (makeMoves ops pool first ledger).1 = true then
          moveCalls ops pool second (makeMoves ops pool first ledger).2 else [] := by
  induction first with
  | nil =>
    intro ledger
    simp [moveCalls, makeMoves]
  | cons move rest ih =>
    intro ledger
    cases moved : makeMove ops pool ledger move with
    | none => simp [moveCalls, makeMoves, moved]
    | some next => simp [moveCalls, makeMoves, moved, ih]

include disk

theorem connect_succeeds_iff (blocks : List CBlockIndex) :
    ∀ ledger : Ledger, (∀ call ∈ moveCalls ops pool (blocks.map .connect) ledger,
        call.accepted ops = accepts call.pindex) →
      ((makeMoves ops pool (blocks.map .connect) ledger).1 = true ↔
        ∀ p ∈ blocks, accepts p = true) := by
  induction blocks with
  | nil => simp [makeMoves]
  | cons p rest ih =>
    intro ledger answers
    simp only [List.map_cons, moveCalls, disk.readable, if_true, makeMove, List.singleton_append,
      List.forall_mem_cons, ConnectCall.accepted] at answers
    obtain ⟨here, later⟩ := answers
    simp only [List.map_cons, makeMoves, makeMove, disk.readable, if_true, List.forall_mem_cons,
      ← here]
    cases connects : ops.connectBlock pool ledger p with
    | none => simp
    | some next =>
      rw [connects] at later
      simpa using ih next later

variable (tracks : Tracks ops Indexed Conn) (undoes : Undoes ops Conn)
include tracks undoes

theorem disconnect_succeeds (member : pfork ∈ path pindexBest) :
    ∀ {ledger : Ledger}, Conn ledger pindexBest →
      (makeMoves ops pool ((vDisconnect pfork pindexBest).map .disconnect) ledger).1 = true := by
  induction pindexBest, member using path_induction with
  | base =>
    intro ledger _
    rw [vDisconnect, above_self]
    rfl
  | step p record below ih =>
    intro ledger connected
    obtain ⟨next, run⟩ := Option.isSome_iff_exists.mp (undoes ledger p record connected)
    simp only [vDisconnect, above_grow below, List.map_cons, makeMoves, makeMove, disk.readable,
      if_true, run]
    exact ih (tracks.disconnect connected run)

/-- A reorganisation from an accepted tip goes through exactly when the path to its end
is accepted. -/
theorem moves_succeed_iff (fromBest : pfork ∈ path pindexBest) (toNew : pfork ∈ path pindexNew)
    (answers : ∀ call ∈ moveCalls ops pool (moves pfork pindexBest pindexNew) ledger,
      call.accepted ops = accepts call.pindex)
    (accepted : AcceptedPath accepts pindexBest) (connected : Conn ledger pindexBest) :
    (makeMoves ops pool (moves pfork pindexBest pindexNew) ledger).1 = true ↔
      AcceptedPath accepts pindexNew := by
  have back : (makeMoves ops pool ((vDisconnect pfork pindexBest).map .disconnect) ledger).1 =
      true := disconnect_succeeds disk tracks undoes fromBest connected
  have shared := ((acceptedPath_iff fromBest).mp accepted).1
  rw [moves, moveCalls_append, if_pos back] at answers
  rw [moves, makeMoves_append, if_pos back, connect_succeeds_iff disk _ _
    fun call made => answers call (List.mem_append_right _ made), acceptedPath_iff toNew]
  simp only [vConnect, List.mem_reverse]
  exact ⟨fun all => ⟨shared, all⟩, fun both => both.2⟩

end Moves

/-! ## One call -/

structure Selected (env : Env) (genesis : BlockRecord) (Candidate : CBlockIndex → Prop)
    (Conn : Ledger → CBlockIndex → Prop) (accepts : CBlockIndex → Bool) (node : ChainState) :
    Prop where
  grown : Grown env genesis Candidate Conn node
  accepted : AcceptedPath accepts node.pindexBest
  most : ∀ pindex, IndexedIn node pindex → AcceptedPath accepts pindex →
    nChainTrust pindex ≤ nChainTrust node.pindexBest

section Step
variable {env : Env} {genesis : BlockRecord} {Candidate : CBlockIndex → Prop}
  {middle node next : ChainState} {done : Bool} {new : NewBlock}

theorem postponed_nil (whole : pindexIntermediate node pindexNew = pindexNew) :
    postponed node pindexNew = [] := by
  rw [postponed_eq, whole, vConnect, above_self]
  rfl

variable (disk : DiskWorks ops) (tracks : Tracks ops Candidate Conn) (undoes : Undoes ops Conn)
include disk tracks undoes

section Grown
variable (grown : Grown env genesis Candidate Conn node)
  (accepted : AcceptedPath accepts node.pindexBest)
include grown accepted

theorem reorganize_done_iff {pindex : CBlockIndex} (member : IndexedIn node pindex)
    (answers : ∀ pfork, findFork node.pindexBest pindex = some pfork →
      ∀ call ∈ moveCalls ops (lookup node.mempool) (moves pfork node.pindexBest pindex)
        (begun node).ledger, call.accepted ops = accepts call.pindex)
    (result : ReorganizeResult env ops (begun node) pindex done middle) :
    done = true ↔ AcceptedPath accepts pindex := by
  have standing := grown.settled.standing.begun_connected tracks
  have moved : ∀ pfork, findFork node.pindexBest pindex = some pfork →
      ((makeMoves ops (lookup (begun node).mempool) (moves pfork (begun node).pindexBest pindex)
        (begun node).ledger).1 = true ↔ AcceptedPath accepts pindex) := by
    intro pfork forks
    obtain ⟨fromBest, toNew⟩ := findFork_mem _ _ forks
    exact moves_succeed_iff disk tracks undoes fromBest toNew (answers pfork forks) accepted standing
  cases result with
  | unrelated fails =>
    have sameRoot : rootOf node.pindexBest = rootOf pindex := by
      rw [grown.tree.rooted _ grown.best, grown.tree.rooted _ member]
    obtain ⟨pfork, forks⟩ := findFork_isSome pindex sameRoot
    have none : findFork node.pindexBest pindex = none := fails
    rw [forks] at none
    cases none
  | stopped forks fails => rw [← moved _ forks, fails]
  | uncommitted forks _ fails =>
    rw [disk.commits] at fails
    cases fails
  | switched forks success => rw [← moved _ forks, success]

section Others
variable (member : IndexedIn node pindexNew)
  (answers : ∀ call ∈ switchCalls ops node pindexNew, call.accepted ops = accepts call.pindex)
  (others : ∀ pindex, IndexedIn node pindex → pindex ≠ pindexNew →
    AcceptedPath accepts pindex → nChainTrust pindex ≤ nChainTrust node.pindexBest)
include member answers

theorem reorganize_accepted_iff (branch : (blockOf pindexNew).hashPrevBlock ≠ node.hashBestChain)
    (result : ReorganizeResult env ops (begun node) (pindexIntermediate node pindexNew) done
      middle) : done = true ↔ AcceptedPath accepts (pindexIntermediate node pindexNew) := by
  have inside := (postpone_spec (nChainTrust node.pindexBest) pindexNew).1
  refine reorganize_done_iff disk tracks undoes grown accepted (grown.tree.onPath member _ inside)
    (fun pfork forks => ?_) result
  rw [switchCalls, if_neg branch, forks] at answers
  exact answers

include others

theorem intermediate_eq (branch : (blockOf pindexNew).hashPrevBlock ≠ node.hashBestChain)
    (result : ReorganizeResult env ops (begun node) (pindexIntermediate node pindexNew) true
      middle) : pindexIntermediate node pindexNew = pindexNew := by
  obtain ⟨inside, _, trust⟩ := postpone_spec (nChainTrust node.pindexBest) pindexNew
  have indexed : IndexedIn node (pindexIntermediate node pindexNew) :=
    grown.tree.onPath member _ inside
  have reached :=
    (reorganize_accepted_iff disk tracks undoes grown accepted member answers branch result).mp rfl
  rcases trust with same | more
  · exact same
  · by_contra different
    exact absurd (others _ indexed different reached) (not_le.mpr more)

theorem set_done_iff (child : pindexNew ≠ .root genesis)
    (result : SetResult env ops node pindexNew done next) :
    (done = true ↔ AcceptedPath accepts pindexNew) ∧
      (done = true → postponed node pindexNew = []) := by
  have onTip : (blockOf pindexNew).hashPrevBlock = node.hashBestChain →
      ∃ record, pindexNew = .grow node.pindexBest record :=
    child_of_best grown.tree grown.settled.memory grown.best member fun root => absurd root child
  have extension : (blockOf pindexNew).hashPrevBlock = node.hashBestChain →
      (ops.connectBlock (lookup node.mempool) (begun node).ledger pindexNew).isSome =
        accepts pindexNew := by
    intro onBest
    rw [switchCalls, if_pos onBest] at answers
    exact answers _ (List.mem_singleton.mpr rfl)
  obtain ⟨inside, _⟩ := postpone_spec (nChainTrust node.pindexBest) pindexNew
  cases result with
  | extended onBest inner =>
    have answer := extension onBest
    obtain ⟨record, rfl⟩ := onTip onBest
    cases inner with
    | attached connects commits cleared =>
      have success := Option.isSome_of_eq_some connects
      exact ⟨⟨fun _ => ⟨accepted, answer.symm.trans success⟩, fun _ => rfl⟩,
        fun _ => postponed_child⟩
  | notExtended onBest inner =>
    have answer := extension onBest
    obtain ⟨record, rfl⟩ := onTip onBest
    refine ⟨⟨nofun, fun path => ?_⟩, nofun⟩
    cases inner with
    | rejected fails =>
      have failure : ops.connectBlock (lookup node.mempool) (begun node).ledger
          (.grow node.pindexBest record) = none := fails
      rw [failure, path.2] at answer
      cases answer
    | uncommitted connects fails =>
      rw [disk.commits] at fails
      cases fails
  | switched branch reorganised secondary =>
    have whole := intermediate_eq disk tracks undoes grown accepted member answers others branch
      reorganised
    have reached := reorganize_accepted_iff disk tracks undoes grown accepted member answers branch
      reorganised
    refine ⟨⟨fun _ => ?_, fun _ => rfl⟩, fun _ => postponed_nil whole⟩
    rw [← whole]
    exact reached.mp rfl
  | notSwitched branch reorganised =>
    have reached := reorganize_accepted_iff disk tracks undoes grown accepted member answers branch
      reorganised
    refine ⟨⟨nofun, fun path => ?_⟩, nofun⟩
    exact reached.mpr ((acceptedPath_iff inside).mp path).1

theorem set_selected (lawful : LawfulOps ops) (child : pindexNew ≠ .root genesis)
    (high : nChainTrust node.pindexBest < nChainTrust pindexNew)
    (result : SetResult env ops node pindexNew done next) :
    Selected env genesis Candidate Conn accepts next := by
  obtain ⟨outcome, nothingLeft⟩ :=
    set_done_iff disk tracks undoes grown accepted member answers others child result
  cases done with
  | true =>
    obtain ⟨reached, _, last, rfl, standing, memory, ends⟩ :=
      reached_of_set grown.tree lawful (tracks.mono grown.candidates) grown.best member
        (fun root => absurd root child) grown.settled result
    rw [nothingLeft rfl] at ends
    obtain rfl : reached = pindexNew := by simpa using ends
    refine ⟨grown.succeeded member memory (standing.newBest tracks), outcome.mp rfl, ?_⟩
    intro pindex inMap path
    have old : IndexedIn node pindex := by
      rw [IndexedIn, ← memory.mapBlockIndex]
      exact inMap
    by_cases same : pindex = reached
    · rw [same]
      exact le_refl _
    · exact (others pindex old same path).trans (le_of_lt high)
  | false =>
    obtain ⟨kept, best⟩ := grown.failed lawful tracks result
    obtain ⟨_, memory⟩ := grown.settled.failed lawful tracks result
    refine ⟨kept, best ▸ accepted, ?_⟩
    intro pindex inMap path
    have old : IndexedIn node pindex := by
      rw [IndexedIn, ← memory.mapBlockIndex]
      exact inMap
    rw [best]
    apply others pindex old _ path
    rintro rfl
    exact absurd (outcome.mpr path) (by simp)

end Others

end Grown

omit disk undoes in
theorem Selected.entered (selected : Selected env genesis Candidate Conn accepts node)
    (arrives : Arrives env Candidate node new) (fresh : Unindexed env node new) :
    Grown env genesis Candidate Conn (indexed node (newIndex env node new)) ∧
      IndexedIn (indexed node (newIndex env node new)) (newIndex env node new) ∧
      ∀ pindex, IndexedIn (indexed node (newIndex env node new)) pindex →
        pindex ≠ newIndex env node new → AcceptedPath accepts pindex →
        nChainTrust pindex ≤ nChainTrust node.pindexBest := by
  have inMap := indexedIn_indexed fresh
  refine ⟨selected.grown.indexed tracks arrives fresh, (inMap _).mpr (Or.inl rfl), ?_⟩
  intro pindex member different path
  rcases (inMap pindex).mp member with same | old
  · exact absurd same different
  · exact selected.most pindex old path

theorem Selected.add (lawful : LawfulOps ops)
    (selected : Selected env genesis Candidate Conn accepts node)
    (arrives : Arrives env Candidate node new) (answers : AnswersFrom accepts env ops node new)
    (result : AddResult env ops node new done next) :
    Selected env genesis Candidate Conn accepts next := by
  cases result with
  | refused => exact selected
  | unwritten fresh fails =>
    rw [disk.commitsIndex] at fails
    cases fails
  | kept fresh low =>
    obtain ⟨grown, _, others⟩ := selected.entered tracks arrives fresh
    refine ⟨grown, selected.accepted, ?_⟩
    intro pindex member path
    by_cases same : pindex = newIndex env node new
    · rw [same]
      exact low.trans (le_of_eq selected.grown.trust)
    · exact others pindex member same path
  | tried fresh high result =>
    obtain ⟨grown, member, others⟩ := selected.entered tracks arrives fresh
    have more : nChainTrust node.pindexBest < nChainTrust (newIndex env node new) :=
      selected.grown.trust ▸ high
    exact set_selected disk tracks undoes grown selected.accepted member (answers high) others
      lawful (newIndex_ne_root arrives.parent) more result

end Step

/-! ## Runs -/

theorem undoes_coreOps {env : Env} {Known : CTransaction → Prop} {genesis : BlockRecord}
    {start : Ledger} {described : List PlacedTx} (adjustedTime : CBlockIndex → Int)
    (checkStakeModifier : CBlockIndex → Bool) (distinct : CollisionFree env Known)
    (first : Described env Known genesis described start) :
    Undoes (coreOps env adjustedTime checkStakeModifier) (History env Known start genesis) := by
  intro ledger tip record history
  obtain ⟨valid, index⟩ := history_canonical distinct first history
  obtain ⟨next, run, _⟩ := disconnect_canonical valid index
  exact Option.isSome_iff_exists.mpr ⟨next, run⟩

/-- The best block has an accepted path and the most trust of all such blocks. -/
structure MostTrust (accepts : CBlockIndex → Bool) (node : ChainState) : Prop where
  indexed : IndexedIn node node.pindexBest
  accepted : AcceptedPath accepts node.pindexBest
  most : ∀ pindex, IndexedIn node pindex → AcceptedPath accepts pindex →
    nChainTrust pindex ≤ nChainTrust node.pindexBest

/-- If the reorganisation for a new block succeeds, no block is left to connect after
it. -/
def NothingPostponed (env : Env) (ops : BlockOps) (node : ChainState) (new : NewBlock) : Prop :=
  node.mapBlockIndex.lookup (getHash env new.block) = none →
  node.nBestChainTrust < nChainTrust (newIndex env node new) →
  (blockOf (newIndex env node new)).hashPrevBlock ≠ node.hashBestChain →
  ∀ middle, reorganize env ops (begun (indexed node (newIndex env node new)))
      (pindexIntermediate (indexed node (newIndex env node new)) (newIndex env node new)) =
      .ok (true, middle) →
    postponed (indexed node (newIndex env node new)) (newIndex env node new) = []

/-- Calls of `AddToBlockIndex` with the modelled block calls at any time on the clock, in any
order that brings parents before their children, such that `ConnectBlock` answers by the path. -/
structure OrderlyStep (env : Env) (Candidate : CBlockIndex → Prop) (accepts : CBlockIndex → Bool)
    (node : ChainState) (call : BlockOps × NewBlock) : Prop where
  core : ∃ adjustedTime checkStakeModifier, call.1 = coreOps env adjustedTime checkStakeModifier
  arrives : Arrives env Candidate node call.2
  answers : AnswersFrom accepts env call.1 node call.2

theorem best_has_most_trust (env : Env) (Known : CTransaction → Prop) (genesis : BlockRecord)
    (wallets : List CWallet) (Candidate : CBlockIndex → Prop) (accepts : CBlockIndex → Bool)
    (node : ChainState) (distinct : CollisionFree env Known)
    (hashed : getHash env genesis.block = genesis.phashBlock)
    (arrived : ∀ tip record, Candidate (.grow tip record) → Arrived Known (.grow tip record))
    (reached : Reached (addStep env) (OrderlyStep env Candidate accepts)
      (genesisState genesis wallets) node) :
    MostTrust accepts node ∧ ∀ call, OrderlyStep env Candidate accepts node call →
      NothingPostponed env call.1 node call.2 := by
  have first := described_genesis env Known genesis wallets
  have selected : Selected env genesis Candidate
      (History env Known (genesisState genesis wallets).ledger genesis) accepts node := by
    refine reached.invariant _ ⟨grown_genesis genesis wallets hashed (.start rfl), trivial, ?_⟩ ?_
    · intro pindex member _
      rw [(indexedIn_genesis genesis wallets pindex).mp member]
      exact le_refl _
    · rintro state ⟨ops, new⟩ next before ⟨⟨adjustedTime, checkStakeModifier, rfl⟩, arrives,
        answers⟩ moved
      obtain ⟨done, result⟩ := addStep_result moved
      exact before.add (diskWorks_coreOps _ _ _) (tracks_history env _ genesis _ _ arrived)
        (undoes_coreOps _ _ distinct first) (lawful_coreOps _ _ _) arrives answers result
  refine ⟨⟨selected.grown.best, selected.accepted, selected.most⟩, ?_⟩
  rintro ⟨ops, new⟩ ⟨⟨adjustedTime, checkStakeModifier, rfl⟩, arrives, answers⟩ fresh high branch
    middle run
  have tracks := tracks_history env (genesisState genesis wallets).ledger genesis adjustedTime
    checkStakeModifier arrived
  obtain ⟨grown, member, others⟩ := selected.entered tracks arrives fresh
  exact postponed_nil (intermediate_eq (diskWorks_coreOps _ _ _) tracks
    (undoes_coreOps _ _ distinct first) grown selected.accepted member (answers high) others branch
    (reorganizeResult run))

/-- The run in which the second branch takes over, after a block on it was refused. -/
theorem best_has_most_trust_eighthIndex : ∃ node, plainNode 10 = some node ∧
    node.pindexBest = eighthIndex ∧ IndexedIn node rivalIndex ∧ IndexedIn node refusedIndex ∧
      MostTrust (fun p => decide (p ≠ refusedIndex)) node := by
  obtain ⟨node, run, best, rival, refused⟩ : ∃ node ∈ plainNode 10, node.pindexBest = eighthIndex ∧
      node.mapBlockIndex.lookup (getBlockHash rivalIndex) = some rivalIndex ∧
      node.mapBlockIndex.lookup (getBlockHash refusedIndex) = some refusedIndex := by decide +kernel
  refine ⟨node, run, best, rival, refused, (best_has_most_trust plainEnv PlainKnown toyGenesis []
    (· ∈ plainBlocks) _ node collisionFree_plainKnown getHash_toyGenesis arrived_plainBlocks
    ((reached_plainNode run).mono ?_)).1⟩
  rintro state ⟨ops, new⟩ ⟨rfl, arrives, _, answers⟩
  exact ⟨⟨_, _, rfl⟩, arrives, answers⟩

end SynergyChain.Selection
