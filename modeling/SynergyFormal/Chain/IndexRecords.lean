import SynergyFormal.Lib.Loop
import SynergyFormal.Chain.BlockMap

/-!
# The block index records in the database

An index entry is written when it is made, when its block is connected, and when a block
above it is connected or disconnected; the last two change `hashNext` on disk inside a
batch, and the links in memory follow after the commit.  `Recorded` says that the records
describe the entries as of a block where the chain stands: every call moves that block,
and a batch that is dropped leaves it.
-/

set_option autoImplicit false

namespace SynergyChain.IndexRecords

open SynergyLib SynergyData SynergyLedger
open BatchStore Loop SynergyLib.Tree Transaction Block TxDB Inputs Wallet ConnectBlock
  SynergyPool.MemPool BestChain Switch BlockMap
open Function (update update_of_ne update_self)

/-! ## The records a reader sees -/

def asBlockIndex : Option DbValue → Option CDiskBlockIndex
  | some (.blockIndex record) => some record
  | _ => none

def indexView (txdb : CTxDB) (hash : Uint256) : Option CDiskBlockIndex :=
  asBlockIndex (view txdb (.blockIndex hash))

theorem indexView_writeBlockIndex (txdb : CTxDB) (blockindex : CDiskBlockIndex) :
    indexView (writeBlockIndex txdb blockindex) =
      update (indexView txdb) blockindex.record.phashBlock (some blockindex) := by
  funext hash
  rw [indexView, writeBlockIndex, view_write]
  by_cases same : hash = blockindex.record.phashBlock
  · subst same
    rw [update_self, update_self]
    rfl
  · have keys : DbKey.blockIndex hash ≠ .blockIndex blockindex.record.phashBlock :=
      fun equal => same (DbKey.blockIndex.inj equal)
    rw [update_of_ne keys, update_of_ne same, indexView]

theorem indexView_write_other (txdb : CTxDB) (key : DbKey) (record : DbValue)
    (other : ∀ hash, key ≠ .blockIndex hash) :
    indexView (write txdb key record) = indexView txdb := by
  funext hash
  rw [indexView, view_write, update_of_ne (other hash).symm, indexView]

variable {txdb next : CTxDB} {env : Env} {tip : CBlockIndex} {Indexed : CBlockIndex → Prop}
  {genesis : BlockRecord}

theorem indexView_erase_other {key : DbKey} (other : ∀ hash, key ≠ .blockIndex hash) :
    indexView (erase txdb key) = indexView txdb := by
  funext hash
  rw [indexView, view_erase, update_of_ne (other hash).symm, indexView]

theorem indexView_writeQueue {queue : Queue} :
    indexView (writeQueue txdb queue) = indexView txdb := by
  have each : ∀ (items : List (Sigma fun _ : Uint256 => CTxIndex)) (db : CTxDB),
      indexView (items.foldl (fun db item => updateTxIndex db item.1 item.2) db) =
        indexView db := by
    intro items
    induction items with
    | nil => intro db; rfl
    | cons item items ih =>
      intro db
      exact (ih _).trans (indexView_write_other db _ _ (by simp))
  exact each queue.entries txdb

theorem indexView_disconnectInput {txin : CTxIn} (run : disconnectInput txdb txin = some next) :
    indexView next = indexView txdb := by
  unfold disconnectInput at run
  split at run
  · cases run
  · split_ifs at run
    cases run
    exact indexView_write_other txdb _ _ (by simp)

theorem indexView_disconnectInputs {tx : CTransaction}
    (run : disconnectInputs env txdb tx = some next) : indexView next = indexView txdb := by
  unfold disconnectInputs at run
  split_ifs at run
  · cases run
    exact indexView_erase_other (by simp)
  · obtain ⟨released, inputs, rfl⟩ := Option.map_eq_some_iff.mp run
    have kept := foldlM_rule (fun db => indexView db = indexView txdb) (fun _ => True)
      (fun db txin next same step => ⟨(indexView_disconnectInput step).trans same, trivial⟩)
      tx.vin rfl inputs
    exact (indexView_erase_other (by simp)).trans kept.1

theorem indexView_of_store {a b : CTxDB} (aClosed : a.activeBatch = none)
    (bClosed : b.activeBatch = none)
    (stores : ∀ hash, a.store (.blockIndex hash) = b.store (.blockIndex hash)) :
    indexView a = indexView b := by
  funext hash
  simp only [indexView, view, aClosed, bClosed, stores]

/-! ## Records and entries -/

/-- The hash a pointer is stored as. -/
def linkHash (link : Option CBlockIndex) : Uint256 := (link.map getBlockHash).getD 0

/-- A record of an entry when the chain stands at `tip`.  The supply of a block off the
chain may have been set in memory by a batch that was dropped. -/
structure Describes (ledger : Ledger) (tip pindex : CBlockIndex) (disk : CDiskBlockIndex) :
    Prop where
  record : disk.record = value pindex
  hashPrev : disk.hashPrev = linkHash (pprev pindex)
  hashNext : disk.hashNext = linkHash (links tip pindex)
  nHeight : disk.nHeight = nHeight pindex
  nMint : pindex ∈ path tip → disk.nMint = ledger.nMint pindex
  nMoneySupply : pindex ∈ path tip → disk.nMoneySupply = ledger.nMoneySupply pindex

structure Recorded (Indexed : CBlockIndex → Prop) (ledger : Ledger) (tip : CBlockIndex)
    (records : Uint256 → Option CDiskBlockIndex) : Prop where
  entry : ∀ pindex, Indexed pindex →
    ∃ disk, records (getBlockHash pindex) = some disk ∧ Describes ledger tip pindex disk
  only : ∀ hash, (records hash).isSome = true →
    ∃ pindex, Indexed pindex ∧ getBlockHash pindex = hash

/-- The supply fields of the entries on the way to a block are the same. -/
def SameSupply (tip : CBlockIndex) (ledger next : Ledger) : Prop :=
  ∀ p ∈ path tip, next.nMint p = ledger.nMint p ∧ next.nMoneySupply p = ledger.nMoneySupply p

theorem SameSupply.refl (tip : CBlockIndex) (ledger : Ledger) : SameSupply tip ledger ledger :=
  fun _ _ => ⟨rfl, rfl⟩

theorem SameSupply.trans {first second third : Ledger} (one : SameSupply tip first second)
    (two : SameSupply tip second third) : SameSupply tip first third := fun p member =>
  ⟨(two p member).1.trans (one p member).1, (two p member).2.trans (one p member).2⟩

theorem Recorded.congr {ledger next : Ledger} {records : Uint256 → Option CDiskBlockIndex}
    (recorded : Recorded Indexed ledger tip records) (same : SameSupply tip ledger next) :
    Recorded Indexed next tip records := by
  refine ⟨fun pindex member => ?_, recorded.only⟩
  obtain ⟨disk, present, describes⟩ := recorded.entry pindex member
  exact ⟨disk, present, describes.record, describes.hashPrev, describes.hashNext,
    describes.nHeight, fun inside => (describes.nMint inside).trans (same pindex inside).1.symm,
    fun inside => (describes.nMoneySupply inside).trans (same pindex inside).2.symm⟩

section Blocks
variable {ledger next : Ledger} {record : BlockRecord}

theorem Recorded.only_update {records : Uint256 → Option CDiskBlockIndex} {pindex : CBlockIndex}
    (recorded : Recorded Indexed ledger tip records) (member : Indexed pindex)
    {disk : CDiskBlockIndex} {hash : Uint256}
    (present : (update records (getBlockHash pindex) (some disk) hash).isSome = true) :
    ∃ p, Indexed p ∧ getBlockHash p = hash := by
  by_cases same : hash = getBlockHash pindex
  · exact ⟨pindex, member, same.symm⟩
  · rw [update_of_ne same] at present
    exact recorded.only hash present

variable (tree : BlockTree env genesis Indexed) (member : Indexed (.grow tip record))
include tree member

theorem Recorded.connect {adjustedTime : Int} {pool : PoolLookup}
    (recorded : Recorded Indexed ledger tip (indexView ledger.txdb))
    (last : ledger.pnext (.grow tip record) = none)
    (run : connectBlock env adjustedTime pool ledger record.block (.grow tip record) = some next) :
    Recorded Indexed next (.grow tip record) (indexView next.txdb) := by
  obtain ⟨_, pass, _, _, rfl⟩ := connectBlock_cases run
  have parent := (tree.parents tip record member).1
  have distinct : getBlockHash tip ≠ getBlockHash (.grow tip record) := fun same =>
    grow_not_mem_path tip record (tree.distinct _ _ parent member same ▸ self_mem_path tip)
  set supplied := recordSupply ledger (.grow tip record) pass with supplied_def
  have records : indexView (finishConnect env ledger (.grow tip record) record.block pass).txdb =
      update (update (indexView ledger.txdb) (getBlockHash (.grow tip record))
        (some (diskBlockIndex supplied (.grow tip record)))) (getBlockHash tip)
        (some { diskBlockIndex supplied tip with
          hashNext := getBlockHash (.grow tip record) }) := by
    refine (indexView_writeBlockIndex _ _).trans ?_
    rw [indexView_writeQueue]
    exact congrArg (fun f => update f (getBlockHash tip) _)
      (indexView_writeBlockIndex ledger.txdb _)
  rw [records]
  refine ⟨fun p inside => ?_, fun hash present => ?_⟩
  · by_cases isTip : p = tip
    · subst isTip
      refine ⟨_, update_self _ _ _, rfl, rfl, ?_, rfl, fun _ => rfl, fun _ => rfl⟩
      simp [linkHash, links]
    · have offTip : getBlockHash p ≠ getBlockHash tip := fun same =>
        isTip (tree.distinct p tip inside parent same)
      rw [update_of_ne offTip]
      by_cases isNew : p = .grow tip record
      · subst isNew
        refine ⟨_, update_self _ _ _, rfl, rfl, ?_, rfl, fun _ => rfl, fun _ => rfl⟩
        have none : supplied.pnext (.grow tip record) = none := last
        rw [links_eq_none _ (le_refl _)]
        simp only [diskBlockIndex, none]
        rfl
      · have offNew : getBlockHash p ≠ getBlockHash (.grow tip record) := fun same =>
          isNew (tree.distinct p _ inside member same)
        rw [update_of_ne offNew]
        obtain ⟨disk, present, describes⟩ := recorded.entry p inside
        have kept : supplied.nMint p = ledger.nMint p ∧
            supplied.nMoneySupply p = ledger.nMoneySupply p :=
          ⟨update_of_ne isNew _ _, update_of_ne isNew _ _⟩
        have below : p ∈ path (.grow tip record) → p ∈ path tip := fun on =>
          (mem_path_grow.mp on).resolve_right isNew
        refine ⟨disk, present, describes.record, describes.hashPrev, ?_, describes.nHeight,
          fun on => (describes.nMint (below on)).trans kept.1.symm,
          fun on => (describes.nMoneySupply (below on)).trans kept.2.symm⟩
        rw [links, update_of_ne isTip]
        exact describes.hashNext
  · by_cases onTip : hash = getBlockHash tip
    · exact ⟨tip, parent, onTip.symm⟩
    · rw [update_of_ne onTip] at present
      exact recorded.only_update member present

theorem Recorded.disconnect
    (recorded : Recorded Indexed ledger (.grow tip record) (indexView ledger.txdb))
    (run : disconnectBlock env ledger record.block (.grow tip record) = some next) :
    Recorded Indexed next tip (indexView next.txdb) := by
  obtain ⟨txdb, released, rfl⟩ := Option.map_eq_some_iff.mp run
  have parent := (tree.parents tip record member).1
  have view := (foldlM_rule (fun db => indexView db = indexView ledger.txdb) (fun _ => True)
    (fun db tx next same step => ⟨(indexView_disconnectInputs step).trans same, trivial⟩)
    record.block.vtx.reverse rfl released).1
  have records : indexView (writePrevNext ledger txdb (.grow tip record) 0) =
      update (indexView ledger.txdb) (getBlockHash tip)
        (some { diskBlockIndex ledger tip with hashNext := 0 }) := by
    refine (indexView_writeBlockIndex txdb _).trans ?_
    rw [view]
    rfl
  dsimp only
  rw [records]
  refine ⟨fun p inside => ?_, fun hash present => recorded.only_update parent present⟩
  by_cases isTip : p = tip
  · subst isTip
    refine ⟨_, update_self _ _ _, rfl, rfl, ?_, rfl, fun _ => rfl, fun _ => rfl⟩
    rw [links_eq_none _ (le_refl _)]
    rfl
  · have offTip : getBlockHash p ≠ getBlockHash tip := fun same =>
      isTip (tree.distinct p tip inside parent same)
    obtain ⟨disk, present, describes⟩ := recorded.entry p inside
    rw [update_of_ne offTip]
    have above : p ∈ path tip → p ∈ path (.grow tip record) := fun on =>
      mem_path_grow.mpr (Or.inl on)
    refine ⟨disk, present, describes.record, describes.hashPrev, ?_, describes.nHeight,
      fun on => describes.nMint (above on), fun on => describes.nMoneySupply (above on)⟩
    rw [describes.hashNext, links, update_of_ne isTip]

end Blocks

/-- What the block calls do to the records and the supply fields. -/
structure Rewrites (ops : BlockOps) (Indexed : CBlockIndex → Prop) : Prop where
  connect : ∀ {pool ledger next tip record}, Indexed (.grow tip record) →
    ledger.pnext (.grow tip record) = none →
    Recorded Indexed ledger tip (indexView ledger.txdb) →
    ops.connectBlock pool ledger (.grow tip record) = some next →
    Recorded Indexed next (.grow tip record) (indexView next.txdb)
  disconnect : ∀ {ledger next tip record}, Indexed (.grow tip record) →
    Recorded Indexed ledger (.grow tip record) (indexView ledger.txdb) →
    ops.disconnectBlock ledger (.grow tip record) = some next →
    Recorded Indexed next tip (indexView next.txdb)
  connectSupply : ∀ {pool ledger next pindex tip},
    ops.connectBlock pool ledger pindex = some next → pindex ∉ path tip →
    SameSupply tip ledger next
  disconnectSupply : ∀ {ledger next pindex tip},
    ops.disconnectBlock ledger pindex = some next → SameSupply tip ledger next

theorem rewrites_coreOps (tree : BlockTree env genesis Indexed) {adjustedTime : CBlockIndex → Int}
    {checkStakeModifier : CBlockIndex → Bool} :
    Rewrites (coreOps env adjustedTime checkStakeModifier) Indexed where
  connect member last recorded run := recorded.connect tree member last run
  disconnect member recorded run := recorded.disconnect tree member run
  connectSupply := by
    intro pool ledger next pindex tip run outside p inside
    have other : p ≠ pindex := fun same => outside (same ▸ inside)
    obtain ⟨_, pass, _, _, rfl⟩ := connectBlock_cases run
    exact ⟨update_of_ne other _ _, update_of_ne other _ _⟩
  disconnectSupply := by
    intro ledger next pindex tip run
    obtain ⟨txdb, _, rfl⟩ := Option.map_eq_some_iff.mp run
    exact .refl tip ledger

/-! ## Along the calls -/

def RecordedAt (Indexed : CBlockIndex → Prop) (tip : CBlockIndex) (node : ChainState) : Prop :=
  Recorded Indexed node.ledger tip (indexView node.ledger.txdb)

variable {ops : BlockOps} {Conn : Ledger → CBlockIndex → Prop} {pindexNew : CBlockIndex}
  {node next : ChainState} {done : Bool}

section Calls
variable {pool : PoolLookup} {pfork pindexBest : CBlockIndex} {record : BlockRecord}
variable (tree : BlockTree env genesis Indexed) (lawful : LawfulOps ops)
  (tracks : Tracks ops Indexed Conn) (rewrites : Rewrites ops Indexed)

include lawful rewrites in
theorem moves_records (fromBest : pfork ∈ path pindexBest) (toNew : pfork ∈ path pindexNew)
    (old : ∀ p ∈ path pindexBest, Indexed p) (inside : ∀ p ∈ path pindexNew, Indexed p)
    {ledger last : Ledger} (unlinked : ∀ p ∈ above pfork pindexNew, ledger.pnext p = none)
    (recorded : Recorded Indexed ledger pindexBest (indexView ledger.txdb))
    (run : makeMoves ops pool (moves pfork pindexBest pindexNew) ledger = (true, last)) :
    Recorded Indexed last pindexNew (indexView last.txdb) := by
  -- the links in memory stay until the batch is committed
  obtain ⟨reached, ⟨there, _⟩, whole⟩ := moves_rule
    (Q := fun middle tip => Recorded Indexed middle tip (indexView middle.txdb) ∧
      middle.pnext = ledger.pnext) fromBest toNew
    (fun below past run => ⟨rewrites.disconnect (old _ below) past.1 run,
      (lawful.disconnect _ _ _ run).pnext.trans past.2⟩)
    (fun later past run => ⟨rewrites.connect (inside _ ((mem_path_iff toNew).mpr (Or.inr later)))
      ((congrFun past.2 _).trans (unlinked _ later)) past.1 run,
      (lawful.connect _ _ _ _ run).pnext.trans past.2⟩) ⟨recorded, rfl⟩ run
  exact whole rfl ▸ there

include rewrites in
theorem moves_supply (fromBest : pfork ∈ path pindexBest) (toNew : pfork ∈ path pindexNew)
    (outside : ∀ p ∈ above pfork pindexNew, p ∉ path tip) {ledger last : Ledger}
    (run : makeMoves ops pool (moves pfork pindexBest pindexNew) ledger = (done, last)) :
    SameSupply tip ledger last := by
  obtain ⟨_, same, _⟩ := moves_rule (Q := fun middle _ => SameSupply tip ledger middle)
    fromBest toNew (fun _ past run => past.trans (rewrites.disconnectSupply run))
    (fun later past run => past.trans (rewrites.connectSupply run (outside _ later)))
    (.refl tip ledger) run
  exact same

theorem above_fork_outside {p : CBlockIndex} (forks : findFork pindexBest pindexNew = some pfork)
    (later : p ∈ above pfork pindexNew) : p ∉ path pindexBest := by
  intro shared
  obtain ⟨_, toNew⟩ := findFork_mem pindexNew pfork forks
  have onNew : p ∈ path pindexNew := (mem_path_iff toNew).mpr (Or.inr later)
  exact not_mem_above (findFork_above pindexNew pfork forks shared onNew) toNew later

theorem indexView_txnBegin (closed : txdb.activeBatch = none) :
    indexView (txnBegin txdb) = indexView txdb := by
  funext hash
  rw [indexView, view_txnBegin txdb closed, indexView]

section ActiveBatch
variable (recorded : RecordedAt Indexed tip node)
  (closed : node.ledger.txdb.activeBatch = none)
include recorded closed

theorem RecordedAt.begun : RecordedAt Indexed tip (BestChain.begun node) := by
  have records : indexView (BestChain.begun node).ledger.txdb = indexView node.ledger.txdb :=
    indexView_txnBegin closed
  rw [RecordedAt, records]
  exact recorded.congr (.refl tip node.ledger)

theorem RecordedAt.aborted {other : ChainState}
    (framed : Framed (BestChain.begun node).ledger other.ledger)
    (same : SameSupply tip node.ledger other.ledger) :
    RecordedAt Indexed tip (BestChain.aborted other) := by
  have store : other.ledger.txdb.store = node.ledger.txdb.store := framed.queued.store begun_open
  have records : indexView (BestChain.aborted other).ledger.txdb = indexView node.ledger.txdb :=
    indexView_of_store rfl closed fun hash => congrFun store _
  rw [RecordedAt, records]
  exact Recorded.congr recorded same

theorem RecordedAt.invalidChainFound (pindexNew : CBlockIndex) :
    RecordedAt Indexed tip (BestChain.invalidChainFound node pindexNew) := by
  unfold BestChain.invalidChainFound
  split_ifs
  · obtain ⟨stillClosed, kept⟩ := writeBestInvalidTrust_closed closed
    have records : indexView (writeBestInvalidTrust node.ledger.txdb (nChainTrust pindexNew)) =
        indexView node.ledger.txdb :=
      indexView_of_store stillClosed closed fun hash => kept _ (by simp)
    change Recorded Indexed _ tip (indexView (writeBestInvalidTrust _ _))
    rw [records]
    exact Recorded.congr recorded (.refl tip node.ledger)
  · exact recorded

end ActiveBatch

theorem recordedAt_commit {ledger : Ledger} {hash : Uint256}
    {next : CBlockIndex → Option CBlockIndex}
    (recorded : Recorded Indexed ledger tip (indexView ledger.txdb))
    (shape : node.ledger = { ledger with
      txdb := txnCommit (writeHashBestChain ledger.txdb hash)
      pnext := next }) : RecordedAt Indexed tip node := by
  have records : indexView node.ledger.txdb = indexView ledger.txdb := by
    rw [shape]
    exact indexView_write_other ledger.txdb _ _ (by simp)
  rw [RecordedAt, records]
  refine recorded.congr fun p _ => ?_
  rw [shape]
  exact ⟨rfl, rfl⟩

theorem RecordedAt.newBest (recorded : RecordedAt Indexed tip node) :
    RecordedAt Indexed tip (BestChain.newBest env pindexNew node) :=
  Recorded.congr recorded fun _ _ => ⟨rfl, rfl⟩

include lawful rewrites in
theorem inner_records (member : Indexed (.grow tip record)) (standing : At Conn tip node)
    (recorded : RecordedAt Indexed tip node)
    (result : InnerResult env ops (begun node) (.grow tip record) done next) :
    RecordedAt Indexed (if done then .grow tip record else tip) next := by
  have outside : Branch.grow tip record ∉ path tip := grow_not_mem_path tip record
  cases result with
  | rejected fails =>
    refine RecordedAt.invalidChainFound ?_ rfl _
    exact recorded.aborted standing.closed (.refl _) (.refl tip _)
  | uncommitted connects fails =>
    have same : SameSupply tip (begun node).ledger _ := rewrites.connectSupply connects outside
    exact recorded.aborted standing.closed (lawful.connect _ _ _ _ connects) same
  | attached connects commits cleared =>
    refine recordedAt_commit ?_ rfl
    refine rewrites.connect member ?_ (recorded.begun standing.closed) connects
    exact (congrFun standing.forward _).trans (links_outside outside)

include tree lawful rewrites in
theorem reorganize_records (best : Indexed node.pindexBest) (member : Indexed pindexNew)
    (standing : At Conn node.pindexBest node) (recorded : RecordedAt Indexed node.pindexBest node)
    (result : ReorganizeResult env ops (begun node) pindexNew done next) :
    if done then RecordedAt Indexed pindexNew next
    else RecordedAt Indexed node.pindexBest (aborted next) := by
  have dropped : ∀ {pfork : CBlockIndex} {ledger : Ledger} {moved : Bool},
      findFork node.pindexBest pindexNew = some pfork →
      makeMoves ops (lookup node.mempool) (moves pfork node.pindexBest pindexNew)
        (begun node).ledger = (moved, ledger) →
      RecordedAt Indexed node.pindexBest (aborted { begun node with ledger := ledger }) := by
    intro pfork ledger moved forks run
    obtain ⟨fromBest, toNew⟩ := findFork_mem pindexNew pfork forks
    have same : SameSupply node.pindexBest (begun node).ledger ledger :=
      moves_supply rewrites fromBest toNew (fun _ later => above_fork_outside forks later) run
    exact recorded.aborted standing.closed (framed_makeMoves lawful run) same
  cases result with
  | unrelated fails => exact recorded.aborted standing.closed (.refl _) (.refl _ _)
  | stopped forks fails => exact dropped forks fails
  | uncommitted forks moved fails =>
    have once := dropped forks moved
    exact once
  | @switched pfork ledger pool forks moved commits cleared =>
    obtain ⟨fromBest, toNew⟩ := findFork_mem pindexNew pfork forks
    refine recordedAt_commit ?_ rfl
    refine moves_records lawful rewrites fromBest toNew (tree.onPath best) (tree.onPath member)
      (fun p later => ?_) (recorded.begun standing.closed) moved
    exact (congrFun standing.forward p).trans (links_outside (above_fork_outside forks later))

include tree lawful tracks rewrites in
theorem set_records (best : Indexed node.pindexBest) (member : Indexed pindexNew)
    (origin : pindexNew = .root genesis → genesis.block.hashPrevBlock ≠ node.hashBestChain)
    (settled : Settled Conn node) (recorded : RecordedAt Indexed node.pindexBest node)
    (free : ∀ p ∈ postponed node pindexNew, ¬Blocked ops (postponedCalls env ops node pindexNew) p)
    (result : SetResult env ops node pindexNew done next) :
    RecordedAt Indexed (if done then pindexNew else node.pindexBest) next := by
  have onTip := child_of_best tree settled.memory best member origin
  have inside := (postpone_spec (nChainTrust node.pindexBest) pindexNew).1
  have indexed : Indexed (pindexIntermediate node pindexNew) := tree.onPath member _ inside
  cases result with
  | extended child inner =>
    obtain ⟨record, rfl⟩ := onTip child
    have reached := inner_records lawful rewrites member settled.standing recorded inner
    exact reached.newBest
  | notExtended child inner =>
    obtain ⟨record, rfl⟩ := onTip child
    exact inner_records lawful rewrites member settled.standing recorded inner
  | switched branch reorganised secondary =>
    obtain ⟨standing, _⟩ := settled.standing.reorganize_switched tree lawful tracks indexed
      reorganised
    have reached := reorganize_records tree lawful rewrites best indexed settled.standing
      recorded reorganised
    rw [postponedCalls_eq reorganised] at free
    have last := At.secondary_carries tree lawful tracks member secondary inside
      (postponed_eq node pindexNew) free
      (fun _ indexed standing recorded inner =>
        inner_records lawful rewrites indexed standing recorded inner) standing reached
    exact last.newBest
  | notSwitched branch reorganised =>
    have kept := reorganize_records tree lawful rewrites best indexed settled.standing recorded
      reorganised
    exact kept.invalidChainFound rfl pindexNew

end Calls

/-! ## Additions -/

/-- The records of a node between two calls describe its index. -/
structure Persisted (env : Env) (genesis : BlockRecord) (Conn : Ledger → CBlockIndex → Prop)
    (node : ChainState) : Prop where
  grown : Grown env genesis (fun _ => True) Conn node
  recorded : RecordedAt (IndexedIn node) node.pindexBest node
  height : node.ledger.nBestHeight = nHeight node.pindexBest

theorem indexView_writeIndex (closed : node.ledger.txdb.activeBatch = none) :
    indexView (writeIndex node pindexNew).ledger.txdb =
      update (indexView node.ledger.txdb) (getBlockHash pindexNew)
        (some (diskBlockIndex node.ledger pindexNew)) := by
  refine (indexView_writeBlockIndex (txnBegin node.ledger.txdb) _).trans ?_
  rw [indexView_txnBegin closed]
  rfl

section Step
variable {new : NewBlock} (lawful : LawfulOps ops) (tracks : Tracks ops (fun _ => True) Conn)
  (persisted : Persisted env genesis Conn node)
include tracks persisted

theorem Persisted.entered (parent : ParentKnown node new) (fresh : Unindexed env node new) :
    Persisted env genesis Conn (indexed node (newIndex env node new)) := by
  have inMap := indexedIn_indexed fresh
  refine ⟨persisted.grown.indexed tracks ⟨parent, trivial⟩ fresh, ?_, persisted.height⟩
  have outside : newIndex env node new ∉ path node.pindexBest := fun inside =>
    fresh.ne_hash (persisted.grown.tree.onPath persisted.grown.best _ inside) rfl
  have records : indexView (indexed node (newIndex env node new)).ledger.txdb = _ :=
    indexView_writeIndex persisted.grown.settled.standing.closed
  have tip : (indexed node (newIndex env node new)).pindexBest = node.pindexBest := rfl
  rw [RecordedAt, tip, records]
  refine ⟨fun p member => ?_, fun hash present => ?_⟩
  · by_cases isNew : p = newIndex env node new
    · subst isNew
      refine ⟨_, update_self _ _ _, rfl, rfl, ?_, rfl, fun on => absurd on outside,
        fun on => absurd on outside⟩
      rw [links_outside outside]
      simp [diskBlockIndex, insertIndex, linkHash]
    · have old : IndexedIn node p := ((inMap p).mp member).resolve_left isNew
      have offNew := fresh.ne_hash old
      obtain ⟨disk, present, describes⟩ := persisted.recorded.entry p old
      rw [update_of_ne offNew]
      have kept : (indexed node (newIndex env node new)).ledger.nMint p = node.ledger.nMint p ∧
          (indexed node (newIndex env node new)).ledger.nMoneySupply p =
            node.ledger.nMoneySupply p :=
        ⟨update_of_ne isNew _ _, update_of_ne isNew _ _⟩
      exact ⟨disk, present, describes.record, describes.hashPrev, describes.hashNext,
        describes.nHeight, fun on => (describes.nMint on).trans kept.1.symm,
        fun on => (describes.nMoneySupply on).trans kept.2.symm⟩
  · by_cases same : hash = getBlockHash (newIndex env node new)
    · exact ⟨_, (inMap _).mpr (Or.inl rfl), same.symm⟩
    · rw [update_of_ne same] at present
      obtain ⟨p, member, hashed⟩ := persisted.recorded.only hash present
      exact ⟨p, (inMap p).mpr (Or.inr member), hashed⟩

include lawful in
theorem Persisted.set (rewrites : Rewrites ops (IndexedIn node)) (member : IndexedIn node pindexNew)
    (child : pindexNew ≠ .root genesis)
    (free : ∀ p ∈ postponed node pindexNew, ¬Blocked ops (postponedCalls env ops node pindexNew) p)
    (result : SetResult env ops node pindexNew done next) : Persisted env genesis Conn next := by
  have grown := persisted.grown
  have inTree : Tracks ops (IndexedIn node) Conn := tracks.mono fun _ _ _ => trivial
  obtain ⟨after, best⟩ := grown.set lawful inTree grown.tree grown.best member member child free
    result
  have records := set_records grown.tree lawful inTree rewrites grown.best member
    (fun root => absurd root child) grown.settled persisted.recorded free result
  have map := indexedIn_of_map (map_set result)
  refine ⟨after, ?_, grown.height lawful inTree persisted.height result⟩
  rw [map, best]
  exact records

include lawful in
theorem Persisted.add (rewrites : ∀ Indexed, BlockTree env genesis Indexed → Rewrites ops Indexed)
    (disk : DiskWorks ops) (parent : ParentKnown node new)
    (accepted : PostponedAccepted env ops node new)
    (result : AddResult env ops node new done next) : Persisted env genesis Conn next := by
  cases result with
  | refused => exact persisted
  | unwritten fresh fails =>
    rw [disk.commitsIndex] at fails
    cases fails
  | kept fresh low => exact persisted.entered tracks parent fresh
  | tried fresh high result =>
    have entered := persisted.entered tracks parent fresh
    exact entered.set lawful tracks (rewrites _ entered.grown.tree) (newIndex_indexed fresh)
      (newIndex_ne_root parent) (free_of_accepted disk accepted high) result

end Step

theorem persisted_genesis {wallets : List CWallet}
    (hashed : getHash env genesis.block = genesis.phashBlock)
    (connected : Conn (genesisState genesis wallets).ledger (.root genesis)) :
    Persisted env genesis Conn (genesisState genesis wallets) := by
  refine ⟨grown_genesis genesis wallets hashed connected, ?_, rfl⟩
  have only := indexedIn_genesis genesis wallets
  let start : ChainState := ⟨⟨⟨fun _ => none, none⟩, wallets, fun _ => none, fun _ => 0, fun _ => 0,
    0⟩, emptyMemPool, ∅, 0, .root genesis, 0, 0⟩
  have empty : indexView (⟨fun _ => none, none⟩ : CTxDB) = fun _ => none := rfl
  have records : indexView (genesisState genesis wallets).ledger.txdb =
      update (fun _ => none) genesis.phashBlock (some ⟨genesis, 0, 0, 0, 0, 0⟩) := by
    have written := indexView_write_other (txnBegin (writeIndex (insertIndex start (.root genesis))
      (.root genesis)).ledger.txdb) .hashBestChain (.hash genesis.phashBlock) (by simp)
    refine written.trans ((indexView_txnBegin rfl).trans ?_)
    refine (indexView_writeIndex rfl).trans ?_
    simp [diskBlockIndex, insertIndex, start, empty, pprev, nHeight, getBlockHash]
  have supply : (genesisState genesis wallets).ledger.nMint (.root genesis) = 0 ∧
      (genesisState genesis wallets).ledger.nMoneySupply (.root genesis) = 0 :=
    ⟨update_self _ _ _, update_self _ _ _⟩
  rw [RecordedAt, records]
  refine ⟨fun p member => ?_, fun hash present => ?_⟩
  · obtain rfl := (only p).mp member
    exact ⟨_, update_self _ _ _, rfl, rfl, rfl, rfl, fun _ => supply.1.symm, fun _ => supply.2.symm⟩
  · by_cases same : hash = genesis.phashBlock
    · exact ⟨.root genesis, (only _).mpr rfl, same.symm⟩
    · rw [update_of_ne same] at present
      cases present

end SynergyChain.IndexRecords
