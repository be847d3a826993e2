import SynergyFormal.Ledger.Outstanding
import SynergyFormal.Chain.Pointers

/-!
# The money supply along a run

`nMoneySupply` lives in the index entries: it is written when a block is connected and
never taken back, whether the block is disconnected or its database transaction dropped.
An entry that is exact therefore stays exact, and connecting a block on an exact parent
makes one more entry exact.
-/

set_option autoImplicit false

namespace SynergyChain.MoneySupply

open SynergyLib SynergyData SynergyLedger
open Session SynergyLib.Tree OutputLedger Transaction Block TxDB Inputs Wallet ConnectBlock
  Accounting SpentIndex Outstanding SynergyPool.MemPool BestChain Switch SynergyChain.Core Pointers
  BlockMap

/-! ## Exact entries -/

def Exacts (env : Env) (ledger : Ledger) (tip : CBlockIndex) : Prop :=
  ∀ p ∈ path tip, Exact env ledger p

def Keeps (env : Env) (ledger next : Ledger) : Prop :=
  ∀ p, Exact env ledger p → Exact env next p

variable {env : Env} {ledger next : Ledger} {tip : CBlockIndex} {genesis : BlockRecord}

theorem Keeps.of_field (same : next.nMoneySupply = ledger.nMoneySupply) :
    Keeps env ledger next := by
  intro p exact
  rw [Exact, same]
  exact exact

theorem Keeps.trans {first second third : Ledger} (one : Keeps env first second)
    (two : Keeps env second third) : Keeps env first third :=
  fun p exact => two p (one p exact)

theorem Exacts.keep (exacts : Exacts env ledger tip) (keeps : Keeps env ledger next) :
    Exacts env next tip :=
  fun p member => keeps p (exacts p member)

theorem Exacts.grow {record : BlockRecord} (exacts : Exacts env ledger tip)
    (exact : Exact env ledger (.grow tip record)) : Exacts env ledger (.grow tip record) := by
  intro p member
  rcases mem_path_grow.mp member with below | rfl
  · exact exacts p below
  · exact exact

/-- What the block calls do to the supply fields. -/
structure Supplies (env : Env) (ops : BlockOps) (Indexed : CBlockIndex → Prop)
    (Conn : Ledger → CBlockIndex → Prop) : Prop where
  connect : ∀ {pool ledger next tip record}, Indexed (.grow tip record) → Conn ledger tip →
    Exact env ledger tip → ops.connectBlock pool ledger (.grow tip record) = some next →
    Exact env next (.grow tip record) ∧ Keeps env ledger next
  disconnect : ∀ {ledger next pindex}, ops.disconnectBlock ledger pindex = some next →
    next.nMoneySupply = ledger.nMoneySupply

variable {ops : BlockOps} {Indexed Candidate : CBlockIndex → Prop}
  {Conn : Ledger → CBlockIndex → Prop}

theorem Supplies.mono {Fewer : CBlockIndex → Prop} (supplies : Supplies env ops Indexed Conn)
    (subset : ∀ tip record, Fewer (.grow tip record) → Indexed (.grow tip record)) :
    Supplies env ops Fewer Conn where
  connect member connected exact run := supplies.connect (subset _ _ member) connected exact run
  disconnect run := supplies.disconnect run

/-! ## Along the calls -/

variable {pindexNew : CBlockIndex} {done : Bool} {node next : ChainState}

section Calls
variable {pool : PoolLookup} {pfork : CBlockIndex}

theorem nMoneySupply_invalidChainFound :
    (invalidChainFound node pindexNew).ledger.nMoneySupply = node.ledger.nMoneySupply := by
  unfold invalidChainFound
  split_ifs <;> rfl

variable (tree : BlockTree env genesis Indexed) (lawful : LawfulOps ops)
  (tracks : Tracks ops Indexed Conn) (supplies : Supplies env ops Indexed Conn)
include tracks supplies

theorem moves_supply {pindexBest : CBlockIndex} (fromBest : pfork ∈ path pindexBest)
    (toNew : pfork ∈ path pindexNew) (inside : ∀ p ∈ path pindexNew, Indexed p) {last : Ledger}
    (connected : Conn ledger pindexBest) (exacts : Exacts env ledger pindexBest)
    (run : makeMoves ops pool (moves pfork pindexBest pindexNew) ledger = (done, last)) :
    Keeps env ledger last ∧ (done = true → Exacts env last pindexNew) := by
  have carried := moves_rule
    (Q := fun middle tip => Keeps env ledger middle ∧ Conn middle tip ∧ Exacts env middle tip)
    fromBest toNew ?_ ?_ ⟨fun _ exact => exact, connected, exacts⟩ run
  · obtain ⟨reached, ⟨keeps, _, there⟩, whole⟩ := carried
    exact ⟨keeps, fun success => whole success ▸ there⟩
  · intro middle next tip record _ past run
    obtain ⟨keeps, connected, exacts⟩ := past
    have same : Keeps env middle next := .of_field (supplies.disconnect run)
    exact ⟨keeps.trans same, tracks.disconnect connected run,
      fun p below => same p (exacts p (mem_path_grow.mpr (Or.inl below)))⟩
  · intro middle next tip record later past run
    obtain ⟨keeps, connected, exacts⟩ := past
    have member := inside _ ((mem_path_iff toNew).mpr (Or.inr later))
    obtain ⟨exact, more⟩ := supplies.connect member connected (exacts tip (self_mem_path tip)) run
    exact ⟨keeps.trans more, tracks.connect member connected run, (exacts.keep more).grow exact⟩

theorem inner_supply {record : BlockRecord} (member : Indexed (.grow tip record))
    (standing : At Conn tip node) (exacts : Exacts env node.ledger tip)
    (result : InnerResult env ops (begun node) (.grow tip record) done next) :
    Keeps env node.ledger next.ledger ∧
      (done = true → Exacts env next.ledger (.grow tip record)) := by
  have parent : Exact env (begun node).ledger tip := exacts tip (self_mem_path tip)
  cases result with
  | rejected fails =>
    exact ⟨.of_field nMoneySupply_invalidChainFound, nofun⟩
  | uncommitted connects fails =>
    obtain ⟨_, keeps⟩ := supplies.connect member (standing.begun_connected tracks) parent connects
    exact ⟨keeps, nofun⟩
  | attached connects commits cleared =>
    obtain ⟨exact, keeps⟩ :=
      supplies.connect member (standing.begun_connected tracks) parent connects
    have older : Exacts env (begun node).ledger tip := exacts
    exact ⟨keeps, fun _ => (older.keep keeps).grow exact⟩

include tree in
theorem reorganize_supply (member : Indexed pindexNew) (standing : At Conn node.pindexBest node)
    (exacts : Exacts env node.ledger node.pindexBest)
    (result : ReorganizeResult env ops (begun node) pindexNew done next) :
    Keeps env node.ledger next.ledger ∧ (done = true → Exacts env next.ledger pindexNew) := by
  have moved : ∀ {pfork : CBlockIndex} {ledger : Ledger} {moved : Bool},
      findFork node.pindexBest pindexNew = some pfork →
      makeMoves ops (lookup node.mempool) (moves pfork node.pindexBest pindexNew)
        (begun node).ledger = (moved, ledger) →
      Keeps env (begun node).ledger ledger ∧ (moved = true → Exacts env ledger pindexNew) := by
    intro pfork ledger moved forks run
    obtain ⟨fromBest, toNew⟩ := findFork_mem pindexNew pfork forks
    exact moves_supply tracks supplies fromBest toNew (tree.onPath member)
      (standing.begun_connected tracks) exacts run
  cases result with
  | unrelated fails =>
    exact ⟨fun _ exact => exact, nofun⟩
  | stopped forks fails =>
    exact ⟨(moved forks fails).1, nofun⟩
  | uncommitted forks run fails =>
    exact ⟨(moved forks run).1, nofun⟩
  | switched forks run commits cleared =>
    obtain ⟨keeps, reached⟩ := moved forks run
    exact ⟨keeps, reached⟩

include tree lawful in
/-- A switch keeps the exact entries, and ends with an exact path unless a postponed
block is turned down. -/
theorem set_supply (best : Indexed node.pindexBest) (member : Indexed pindexNew)
    (origin : pindexNew = .root genesis → genesis.block.hashPrevBlock ≠ node.hashBestChain)
    (settled : Settled Conn node) (exacts : Exacts env node.ledger node.pindexBest)
    (free : ∀ p ∈ postponed node pindexNew, ¬Blocked ops (postponedCalls env ops node pindexNew) p)
    (result : SetResult env ops node pindexNew done next) :
    Exacts env next.ledger (if done then pindexNew else node.pindexBest) := by
  have onTip := child_of_best tree settled.memory best member origin
  have inside := (postpone_spec (nChainTrust node.pindexBest) pindexNew).1
  have indexed : Indexed (pindexIntermediate node pindexNew) := tree.onPath member _ inside
  cases result with
  | extended child inner =>
    obtain ⟨record, rfl⟩ := onTip child
    exact (inner_supply tracks supplies member settled.standing exacts inner).2 rfl
  | notExtended child inner =>
    obtain ⟨record, rfl⟩ := onTip child
    exact exacts.keep (inner_supply tracks supplies member settled.standing exacts inner).1
  | switched branch reorganised secondary =>
    obtain ⟨standing, _⟩ := settled.standing.reorganize_switched tree lawful tracks indexed
      reorganised
    obtain ⟨_, reached⟩ := reorganize_supply tree tracks supplies indexed settled.standing exacts
      reorganised
    rw [postponedCalls_eq reorganised] at free
    have last := At.secondary_carries (Q := fun tip node => Exacts env node.ledger tip) tree lawful
      tracks member secondary inside (postponed_eq node pindexNew) free
      (fun _ indexed standing exacts inner =>
        (inner_supply tracks supplies indexed standing exacts inner).2 rfl)
      standing (reached rfl)
    exact last
  | notSwitched branch reorganised =>
    obtain ⟨keeps, _⟩ := reorganize_supply tree tracks supplies indexed settled.standing exacts
      reorganised
    exact exacts.keep (keeps.trans (.of_field nMoneySupply_invalidChainFound))

end Calls

/-! ## Runs -/

/-- What a block brings along: it is in the block files with its ancestors, and if it can
be connected to its parent then the outstanding money stays in the range of `int64_t`. -/
structure SupplyCandidate (env : Env) (Known : CTransaction → Prop) (start : Ledger)
    (genesis : BlockRecord) (pindex : CBlockIndex) : Prop where
  arrived : Arrived Known pindex
  disk : PathOnDisk env pindex
  room : ∀ adjustedTime pool ledger next tip record, pindex = .grow tip record →
    History env Known start genesis ledger tip →
    connectBlock env adjustedTime pool ledger record.block (.grow tip record) = some next →
    supplyAt env pindex < 2 ^ 63

theorem supplies_coreOps {Known : CTransaction → Prop} {start : Ledger}
    {adjustedTime : CBlockIndex → Int} {checkStakeModifier : CBlockIndex → Bool}
    (distinct : CollisionFree env Known) (first : Described env Known genesis [] start) :
    Supplies env (coreOps env adjustedTime checkStakeModifier)
      (SupplyCandidate env Known start genesis) (History env Known start genesis) where
  connect := by
    intro pool ledger next tip record candidate history parent run
    have room := candidate.room _ _ _ _ tip record rfl history run
    have exact := connect_exact distinct first history candidate.arrived.accepted
      candidate.arrived.known candidate.disk parent room run
    refine ⟨exact, fun p before => ?_⟩
    by_cases same : p = .grow tip record
    · exact same ▸ exact
    · rw [Exact, nMoneySupply_connectBlock run same]
      exact before
  disconnect run := nMoneySupply_disconnectBlock run

structure Supplied (env : Env) (genesis : BlockRecord) (Candidate : CBlockIndex → Prop)
    (Conn : Ledger → CBlockIndex → Prop) (node : ChainState) : Prop where
  grown : Grown env genesis Candidate Conn node
  exacts : Exacts env node.ledger node.pindexBest

theorem exacts_genesis {wallets : List CWallet} :
    Exacts env (genesisState genesis wallets).ledger (.root genesis) := by
  intro p member
  obtain rfl : p = .root genesis := by simpa [path] using member
  have field : (genesisState genesis wallets).ledger.nMoneySupply (.root genesis) = 0 :=
    Function.update_self _ _ _
  rw [Exact, field]
  rfl

section Step
variable {new : NewBlock} (lawful : LawfulOps ops) (tracks : Tracks ops Candidate Conn)
  (supplies : Supplies env ops Candidate Conn) (supplied : Supplied env genesis Candidate Conn node)
include tracks supplied

theorem Supplied.entered (arrives : Arrives env Candidate node new)
    (fresh : Unindexed env node new) :
    Supplied env genesis Candidate Conn (indexed node (newIndex env node new)) := by
  refine ⟨supplied.grown.indexed tracks arrives fresh, ?_⟩
  intro p member
  have field : (indexed node (newIndex env node new)).ledger.nMoneySupply p =
      node.ledger.nMoneySupply p := by
    apply Function.update_of_ne
    rintro rfl
    exact fresh.ne_hash (supplied.grown.tree.onPath supplied.grown.best _ member) rfl
  rw [Exact, field]
  exact supplied.exacts p member

include lawful supplies in
theorem Supplied.set (member : IndexedIn node pindexNew) (child : pindexNew ≠ .root genesis)
    (free : ∀ p ∈ postponed node pindexNew, ¬Blocked ops (postponedCalls env ops node pindexNew) p)
    (result : SetResult env ops node pindexNew done next) :
    Supplied env genesis Candidate Conn next := by
  have grown := supplied.grown
  have exacts := set_supply grown.tree lawful (tracks.mono grown.candidates)
    (supplies.mono grown.candidates) grown.best member (fun root => absurd root child)
    grown.settled supplied.exacts free result
  obtain ⟨after, best⟩ := grown.set lawful (tracks.mono grown.candidates) grown.tree grown.best
    member member child free result
  exact ⟨after, best ▸ exacts⟩

include lawful supplies in
theorem Supplied.add (disk : DiskWorks ops) (arrives : Arrives env Candidate node new)
    (accepted : PostponedAccepted env ops node new)
    (result : AddResult env ops node new done next) : Supplied env genesis Candidate Conn next := by
  cases result with
  | refused => exact supplied
  | unwritten fresh fails =>
    rw [disk.commitsIndex] at fails
    cases fails
  | kept fresh low => exact supplied.entered tracks arrives fresh
  | tried fresh high result =>
    exact (supplied.entered tracks arrives fresh).set lawful tracks supplies
      (newIndex_indexed fresh) (newIndex_ne_root arrives.parent)
      (free_of_accepted disk accepted high) result

end Step

/-- Calls of `AddToBlockIndex` with the modelled block calls at any time on the clock,
such that the postponed blocks, if any, are all accepted. -/
structure SupplyStep (env : Env) (Known : CTransaction → Prop) (genesis : BlockRecord)
    (wallets : List CWallet) (node : ChainState) (call : BlockOps × NewBlock) : Prop where
  core : ∃ adjustedTime checkStakeModifier, call.1 = coreOps env adjustedTime checkStakeModifier
  arrives : Arrives env
    (SupplyCandidate env Known (genesisState genesis wallets).ledger genesis) node call.2
  connects : PostponedAccepted env call.1 node call.2

/-- The supply of the best block is the sum of the unspent outputs of the active chain,
and every block of it adds what it creates less what it consumes. -/
structure SupplyExact (env : Env) (node : ChainState) : Prop where
  total : (node.ledger.nMoneySupply node.pindexBest).toInt =
    outstanding env (txView node.ledger.txdb) (chainTxs [] node.pindexBest)
  blocks : ∀ tip record, .grow tip record ∈ path node.pindexBest →
    (node.ledger.nMoneySupply (.grow tip record)).toInt =
      (node.ledger.nMoneySupply tip).toInt + created record.block.vtx.reverse -
        consumed env emptyPool (canonical (shape env) nullPos (chainTxs [] tip))
          record.block.vtx.reverse

theorem supply_is_outstanding (env : Env) (Known : CTransaction → Prop) (genesis : BlockRecord)
    (wallets : List CWallet) (node : ChainState) (distinct : CollisionFree env Known)
    (hashed : getHash env genesis.block = genesis.phashBlock)
    (reached : Reached (addStep env) (SupplyStep env Known genesis wallets)
      (genesisState genesis wallets) node) : SupplyExact env node := by
  have first := described_genesis env Known genesis wallets
  have supplied : Supplied env genesis
      (SupplyCandidate env Known (genesisState genesis wallets).ledger genesis)
      (History env Known (genesisState genesis wallets).ledger genesis) node := by
    refine reached.invariant _
      ⟨grown_genesis genesis wallets hashed (.start rfl), exacts_genesis⟩ ?_
    rintro state ⟨ops, new⟩ next before ⟨⟨adjustedTime, checkStakeModifier, rfl⟩, arrives,
      connects⟩ moved
    obtain ⟨done, result⟩ := addStep_result moved
    exact before.add (lawful_coreOps env adjustedTime checkStakeModifier)
      (tracks_history env _ genesis adjustedTime checkStakeModifier
        fun _ _ candidate => candidate.arrived)
      (supplies_coreOps distinct first) (diskWorks_coreOps _ _ _) arrives connects result
  have grown := supplied.grown
  obtain ⟨valid, index⟩ := history_canonical distinct first grown.settled.standing.connected
  refine ⟨?_, fun tip record member => ?_⟩
  · rw [index]
    exact supplied.exacts _ (self_mem_path _)
  · have indexed := grown.tree.onPath grown.best _ member
    rw [chainTxs_above member] at valid
    have below : tip ∈ path node.pindexBest :=
      path_trans (mem_path_grow.mpr (Or.inl (self_mem_path tip))) member
    rw [supplied.exacts _ member, supplied.exacts _ below]
    exact supplyAt_grow emptyPool valid.drop (grown.candidates tip record indexed).disk

theorem supplyCandidate_plainBlocks (tip : CBlockIndex) (record : BlockRecord)
    (listed : .grow tip record ∈ plainBlocks) : SupplyCandidate plainEnv PlainKnown
      (genesisState toyGenesis []).ledger toyGenesis (.grow tip record) := by
  have each : ∀ pindex ∈ plainBlocks, supplyAt plainEnv pindex < 2 ^ 63 ∧
      (value pindex).nFile ≠ 0xffffffff ∧ 8 ≤ (value pindex).nBlockPos.toNat ∧
      ∀ x ∈ blockTxs pindex (blockOf pindex), plainEnv.readTx x.2 = some x.1 := by decide +kernel
  refine ⟨arrived_plainBlocks tip record listed, fun p r inside => ?_, fun _ _ _ _ _ _ _ _ _ => ?_⟩
  · obtain ⟨_, file, header, stored⟩ := each _ (blockTree_plainBlocks.onPath listed _ inside)
    exact ⟨file, header, stored⟩
  · exact (each _ listed).1

/-- The switch undoes one spend of the first coinbase and makes two others. -/
theorem supply_is_outstanding_eighthIndex : ∃ node, plainNode 10 = some node ∧
    node.pindexBest = eighthIndex ∧
      (node.ledger.nMoneySupply node.pindexBest).toInt = 780000000 ∧ SupplyExact plainEnv node := by
  obtain ⟨node, run, best, supply⟩ : ∃ node ∈ plainNode 10, node.pindexBest = eighthIndex ∧
      (node.ledger.nMoneySupply node.pindexBest).toInt = 780000000 := by decide +kernel
  refine ⟨node, run, best, supply, supply_is_outstanding plainEnv PlainKnown toyGenesis [] node
    collisionFree_plainKnown getHash_toyGenesis ((reached_plainNode run).mono ?_)⟩
  rintro state ⟨ops, new⟩ ⟨rfl, ⟨parent, entry⟩, connects, _⟩
  refine ⟨⟨_, _, rfl⟩, ⟨parent, ?_⟩, connects⟩
  obtain ⟨p, _, shape⟩ := newIndex_shape plainEnv parent
  rw [shape] at entry ⊢
  exact supplyCandidate_plainBlocks _ _ entry

/-! ### A block connected too late

`paidBlock` is dated ahead of the clock of its first call, which turns it down; when
`greedyBlock` follows, the clock has moved on. -/

def paidBlock : NewBlock := ⟨1, 1000, blockOf paidIndex⟩

def greedyBlock : NewBlock := ⟨1, 2000, blockOf greedyIndex⟩

def paidEnv : Env :=
  toyEnv (blockTxs paidIndex (blockOf paidIndex) ++ blockTxs greedyIndex (blockOf greedyIndex))

def clockOps (adjustedTime : Int) : BlockOps :=
  coreOps paidEnv (fun _ => adjustedTime) (fun _ => true)

/-- The best block then has no supply, while the output of `paidBlock` is unspent. -/
theorem greedyBlock_loses_supply : ∃ first second,
    addToBlockIndex paidEnv (clockOps 1432690000) toyState paidBlock = .ok (false, first) ∧
      addToBlockIndex paidEnv (clockOps 1432700000) first greedyBlock = .ok (true, second) ∧
      (second.ledger.nMoneySupply second.pindexBest).toInt = 0 ∧
      outstanding paidEnv (txView second.ledger.txdb) (chainTxs [] second.pindexBest) = 100000000 ∧
      ¬SupplyExact paidEnv second := by
  obtain ⟨first, early, second, late, supply, sum⟩ : ∃ first,
      addToBlockIndex paidEnv (clockOps 1432690000) toyState paidBlock = .ok (false, first) ∧
        ∃ second, addToBlockIndex paidEnv (clockOps 1432700000) first greedyBlock =
            .ok (true, second) ∧ (second.ledger.nMoneySupply second.pindexBest).toInt = 0 ∧
          outstanding paidEnv (txView second.ledger.txdb) (chainTxs [] second.pindexBest) =
            100000000 := by decide +kernel
  refine ⟨first, second, early, late, supply, sum, fun exact => ?_⟩
  have equal := exact.total
  rw [supply, sum] at equal
  cases equal

end SynergyChain.MoneySupply
