import SynergyFormal.Chain.BestChain
import SynergyFormal.Ledger.SpentIndex

/-!
# What a chain switch does

One inversion statement for each of `SetBestChainInner`, `Reorganize` and
`SetBestChain`, and from them the two facts every later result uses.  `At tip` says that
the database, the transaction index and the `pnext` links all stand at `tip`; a call that
returns true moves them along the block tree, a call that returns false leaves them.

How the index stands at a block is a parameter, `Conn`, that connecting and
disconnecting have to follow.
-/

set_option autoImplicit false

namespace SynergyChain.Switch

open SynergyData SynergyLedger
open Function SynergyLib.BatchStore SynergyLib.Tree Transaction Block TxDB Inputs Wallet
  ConnectBlock SynergyPool.MemPool BestChain

/-! ## Results of the calls -/

inductive InnerResult (env : Env) (ops : BlockOps) (node : ChainState) (pindexNew : CBlockIndex) :
    Bool → ChainState → Prop where
  | rejected (fails : ops.connectBlock (lookup node.mempool) node.ledger pindexNew = none) :
      InnerResult env ops node pindexNew false (invalidChainFound (aborted node) pindexNew)
  | uncommitted {ledger : Ledger}
      (connects : ops.connectBlock (lookup node.mempool) node.ledger pindexNew = some ledger)
      (fails : ops.commits pindexNew = false) :
      InnerResult env ops node pindexNew false (aborted { node with ledger := ledger })
  | attached {ledger : Ledger} {pool : CTxMemPool}
      (connects : ops.connectBlock (lookup node.mempool) node.ledger pindexNew = some ledger)
      (commits : ops.commits pindexNew = true)
      (cleared : (blockOf pindexNew).vtx.foldlM (removeOne env) node.mempool = .ok pool) :
      InnerResult env ops node pindexNew true { node with
        ledger := { ledger with
          txdb := txnCommit (writeHashBestChain ledger.txdb (getHash env (blockOf pindexNew)))
          pnext := relink ledger.pnext [pindexNew] }
        mempool := pool }

variable {next node : ChainState} {env : Env} {ops : BlockOps} {pindexNew : CBlockIndex}
  {done : Bool} {pool : PoolLookup} {genesis record : BlockRecord}
  {Indexed : CBlockIndex → Prop} {Conn : Ledger → CBlockIndex → Prop} {pindex : CBlockIndex}

theorem innerResult (run : setBestChainInner env ops node pindexNew = .ok (done, next)) :
    InnerResult env ops node pindexNew done next := by
  unfold setBestChainInner at run
  split at run
  · rename_i fails
    cases run
    exact .rejected fails
  · rename_i ledger connects
    split_ifs at run with commits
    · unfold finishInner at run
      cases cleared : (blockOf pindexNew).vtx.foldlM (removeOne env) node.mempool with
      | error fault =>
        rw [cleared] at run
        cases run
      | ok pool =>
        rw [cleared] at run
        cases run
        exact .attached connects commits cleared
    · cases run
      exact .uncommitted connects (by simpa using commits)

theorem InnerResult.run (result : InnerResult env ops node pindexNew done next) :
    setBestChainInner env ops node pindexNew = .ok (done, next) := by
  cases result with
  | rejected fails => simp only [setBestChainInner, fails]
  | uncommitted connects fails => simp [setBestChainInner, connects, fails]
  | attached connects commits cleared =>
    simp only [setBestChainInner, connects, commits, if_true, finishInner, cleared]
    rfl

/-- The state between the commit of a reorganisation and the update of the pool. -/
def settled (node : ChainState) (pfork pindexNew : CBlockIndex) (ledger : Ledger) : ChainState :=
  { node with
    ledger := { ledger with
      txdb := txnCommit (writeHashBestChain ledger.txdb (getBlockHash pindexNew))
      pnext := relink (unlink ledger.pnext (vDisconnect pfork node.pindexBest))
        (vConnect pfork pindexNew) } }

inductive ReorganizeResult (env : Env) (ops : BlockOps) (node : ChainState)
    (pindexNew : CBlockIndex) : Bool → ChainState → Prop where
  | unrelated (fails : findFork node.pindexBest pindexNew = none) :
      ReorganizeResult env ops node pindexNew false node
  | stopped {pfork : CBlockIndex} {ledger : Ledger}
      (forks : findFork node.pindexBest pindexNew = some pfork)
      (fails : makeMoves ops (lookup node.mempool) (moves pfork node.pindexBest pindexNew)
        node.ledger = (false, ledger)) :
      ReorganizeResult env ops node pindexNew false { node with ledger := ledger }
  | uncommitted {pfork : CBlockIndex} {ledger : Ledger}
      (forks : findFork node.pindexBest pindexNew = some pfork)
      (moved : makeMoves ops (lookup node.mempool) (moves pfork node.pindexBest pindexNew)
        node.ledger = (true, ledger))
      (fails : ops.commits pindexNew = false) :
      ReorganizeResult env ops node pindexNew false (aborted { node with ledger := ledger })
  | switched {pfork : CBlockIndex} {ledger : Ledger} {pool : CTxMemPool}
      (forks : findFork node.pindexBest pindexNew = some pfork)
      (moved : makeMoves ops (lookup node.mempool) (moves pfork node.pindexBest pindexNew)
        node.ledger = (true, ledger))
      (commits : ops.commits pindexNew = true)
      (cleared : (vDelete (vConnect pfork pindexNew)).foldlM (removeWithConflicts env)
        (resurrect env (chainTip (settled node pfork pindexNew ledger)) node.mempool
          (vResurrect env (vDisconnect pfork node.pindexBest))) = .ok pool) :
      ReorganizeResult env ops node pindexNew true
        { settled node pfork pindexNew ledger with mempool := pool }

theorem reorganizeResult (run : reorganize env ops node pindexNew = .ok (done, next)) :
    ReorganizeResult env ops node pindexNew done next := by
  unfold reorganize at run
  split at run
  · rename_i fails
    cases run
    exact .unrelated fails
  · rename_i pfork forks
    split at run
    · rename_i ledger fails
      cases run
      exact .stopped forks fails
    · rename_i ledger moved
      split_ifs at run with commits
      · unfold finishReorganize at run
        cases cleared : (vDelete (vConnect pfork pindexNew)).foldlM (removeWithConflicts env)
            (resurrect env (chainTip (settled node pfork pindexNew ledger)) node.mempool
              (vResurrect env (vDisconnect pfork node.pindexBest))) with
        | error fault =>
          simp only [settled] at cleared
          simp only [cleared] at run
          cases run
        | ok pool =>
          have clearedHere := cleared
          simp only [settled] at clearedHere
          simp only [clearedHere] at run
          cases run
          exact .switched forks moved commits cleared
      · cases run
        exact .uncommitted forks moved (by simpa using commits)

theorem ReorganizeResult.run (result : ReorganizeResult env ops node pindexNew done next) :
    reorganize env ops node pindexNew = .ok (done, next) := by
  cases result with
  | unrelated fails => simp only [reorganize, fails]
  | stopped forks fails => simp only [reorganize, forks, fails]
  | uncommitted forks moved fails => simp [reorganize, forks, moved, fails]
  | switched forks moved commits cleared =>
    simp only [settled] at cleared
    simp only [reorganize, forks, moved, commits, if_true, finishReorganize, cleared]
    rfl

/-- Postponed blocks are attached until one cannot be read, connected or committed. -/
inductive SecondaryResult (env : Env) (ops : BlockOps) :
    List CBlockIndex → ChainState → ChainState → Prop where
  | finished {node : ChainState} : SecondaryResult env ops [] node node
  | unreadable {pindex : CBlockIndex} {rest : List CBlockIndex} {node : ChainState}
      (fails : ops.readable pindex = false) :
      SecondaryResult env ops (pindex :: rest) node node
  | failed {pindex : CBlockIndex} {rest : List CBlockIndex} {node next : ChainState}
      (readable : ops.readable pindex = true)
      (inner : InnerResult env ops (begun node) pindex false next) :
      SecondaryResult env ops (pindex :: rest) node next
  | attached {pindex : CBlockIndex} {rest : List CBlockIndex} {node next last : ChainState}
      (readable : ops.readable pindex = true)
      (inner : InnerResult env ops (begun node) pindex true next)
      (others : SecondaryResult env ops rest next last) :
      SecondaryResult env ops (pindex :: rest) node last

variable {blocks : List CBlockIndex}

theorem secondaryResult :
    ∀ {node last : ChainState}, connectSecondary env ops blocks node = .ok last →
      SecondaryResult env ops blocks node last := by
  induction blocks with
  | nil =>
    intro node last run
    cases run
    exact .finished
  | cons pindex rest ih =>
    intro node last run
    unfold connectSecondary at run
    split_ifs at run with readable
    · cases inner : setBestChainInner env ops (begun node) pindex with
      | error fault =>
        rw [inner] at run
        cases run
      | ok result =>
        rw [inner] at run
        obtain ⟨done, next⟩ := result
        cases done with
        | true => exact .attached readable (innerResult inner) (ih run)
        | false =>
          cases run
          exact .failed readable (innerResult inner)
    · cases run
      exact .unreadable (by simpa using readable)

/-- The blocks the switch to `pindexNew` reorganises up to, and those it postpones, oldest
first. -/
def pindexIntermediate (node : ChainState) (pindexNew : CBlockIndex) : CBlockIndex :=
  (postpone (nChainTrust node.pindexBest) pindexNew).1

def postponed (node : ChainState) (pindexNew : CBlockIndex) : List CBlockIndex :=
  (postpone (nChainTrust node.pindexBest) pindexNew).2.reverse

inductive SetResult (env : Env) (ops : BlockOps) (node : ChainState) (pindexNew : CBlockIndex) :
    Bool → ChainState → Prop where
  | extended {next : ChainState} (child : (blockOf pindexNew).hashPrevBlock = node.hashBestChain)
      (inner : InnerResult env ops (begun node) pindexNew true next) :
      SetResult env ops node pindexNew true (newBest env pindexNew next)
  | notExtended {next : ChainState}
      (child : (blockOf pindexNew).hashPrevBlock = node.hashBestChain)
      (inner : InnerResult env ops (begun node) pindexNew false next) :
      SetResult env ops node pindexNew false next
  | switched {next last : ChainState}
      (branch : (blockOf pindexNew).hashPrevBlock ≠ node.hashBestChain)
      (reorganised : ReorganizeResult env ops (begun node) (pindexIntermediate node pindexNew)
        true next)
      (secondary : SecondaryResult env ops (postponed node pindexNew) next last) :
      SetResult env ops node pindexNew true (newBest env pindexNew last)
  | notSwitched {failed : ChainState}
      (branch : (blockOf pindexNew).hashPrevBlock ≠ node.hashBestChain)
      (reorganised : ReorganizeResult env ops (begun node) (pindexIntermediate node pindexNew)
        false failed) :
      SetResult env ops node pindexNew false (invalidChainFound (aborted failed) pindexNew)

theorem setResult (run : setBestChain env ops node pindexNew = .ok (done, next)) :
    SetResult env ops node pindexNew done next := by
  unfold setBestChain at run
  split_ifs at run with child
  · cases inner : setBestChainInner env ops (begun node) pindexNew with
    | error fault =>
      rw [inner] at run
      cases run
    | ok result =>
      rw [inner] at run
      obtain ⟨done', next'⟩ := result
      cases done' with
      | true =>
        cases run
        exact .extended child (innerResult inner)
      | false =>
        cases run
        exact .notExtended child (innerResult inner)
  · cases reorganised : reorganize env ops (begun node)
        (postpone (nChainTrust node.pindexBest) pindexNew).1 with
    | error fault =>
      rw [reorganised] at run
      cases run
    | ok result =>
      rw [reorganised] at run
      obtain ⟨done', next'⟩ := result
      cases done' with
      | true =>
        cases secondary : connectSecondary env ops
            (postpone (nChainTrust node.pindexBest) pindexNew).2.reverse next' with
        | error fault =>
          simp only [secondary] at run
          cases run
        | ok last =>
          simp only [secondary] at run
          cases run
          exact .switched child (reorganizeResult reorganised) (secondaryResult secondary)
      | false =>
        cases run
        exact .notSwitched child (reorganizeResult reorganised)

/-! ## What single calls leave alone -/

/-- Writes go to the open batch, and the memory of the chain is not touched. -/
structure Framed (ledger next : Ledger) : Prop where
  pnext : next.pnext = ledger.pnext
  nBestHeight : next.nBestHeight = ledger.nBestHeight
  queued : Queued ledger.txdb next.txdb

theorem Framed.refl (ledger : Ledger) : Framed ledger ledger := ⟨rfl, rfl, .refl _⟩

theorem Framed.trans {first second third : Ledger} (one : Framed first second)
    (two : Framed second third) : Framed first third :=
  ⟨two.pnext.trans one.pnext, two.nBestHeight.trans one.nBestHeight, one.queued.trans two.queued⟩

structure LawfulOps (ops : BlockOps) : Prop where
  connect : ∀ pool ledger pindex next,
    ops.connectBlock pool ledger pindex = some next → Framed ledger next
  disconnect : ∀ ledger pindex next,
    ops.disconnectBlock ledger pindex = some next → Framed ledger next

theorem LawfulOps.withDisk (lawful : LawfulOps ops)
    (readable commits commitsIndex : CBlockIndex → Bool) :
    LawfulOps (BestChain.withDisk ops readable commits commitsIndex) :=
  ⟨lawful.connect, lawful.disconnect⟩

theorem framed_makeMove (lawful : LawfulOps ops) {ledger next : Ledger} {move : Move}
    (run : makeMove ops pool ledger move = some next) : Framed ledger next := by
  cases move with
  | disconnect pindex =>
    simp only [makeMove] at run
    split_ifs at run
    exact lawful.disconnect ledger pindex next run
  | connect pindex =>
    simp only [makeMove] at run
    split_ifs at run
    exact lawful.connect pool ledger pindex next run

theorem framed_makeMoves (lawful : LawfulOps ops) {list : List Move} :
    ∀ {ledger last : Ledger} {done : Bool},
      makeMoves ops pool list ledger = (done, last) → Framed ledger last := by
  induction list with
  | nil =>
    intro ledger last done run
    cases run
    exact .refl ledger
  | cons move rest ih =>
    intro ledger last done run
    unfold makeMoves at run
    split at run
    · cases run
      exact .refl ledger
    · rename_i next first
      exact (framed_makeMove lawful first).trans (ih run)

/-! ## The block tree -/

/-- Blocks reached from the genesis block, each under its own hash. -/
structure BlockTree (env : Env) (genesis : BlockRecord) (Indexed : CBlockIndex → Prop) : Prop where
  rooted : ∀ pindex, Indexed pindex → rootOf pindex = .root genesis
  hashed : ∀ pindex, Indexed pindex → getHash env (blockOf pindex) = getBlockHash pindex
  parents : ∀ p record, Indexed (.grow p record) →
    Indexed p ∧ record.block.hashPrevBlock = getBlockHash p
  distinct : ∀ p q, Indexed p → Indexed q → getBlockHash p = getBlockHash q → p = q

/-- A list of blocks that is closed under parents. -/
theorem blockTree_mem {blocks : List CBlockIndex}
    (each : ∀ pindex ∈ blocks, rootOf pindex = .root genesis ∧
      getHash env (blockOf pindex) = getBlockHash pindex ∧
      ∀ p ∈ parent pindex, p ∈ blocks ∧ (blockOf pindex).hashPrevBlock = getBlockHash p)
    (apart : (blocks.map getBlockHash).Nodup) : BlockTree env genesis (· ∈ blocks) where
  rooted pindex listed := (each pindex listed).1
  hashed pindex listed := (each pindex listed).2.1
  parents p _ listed := (each _ listed).2.2 p rfl
  distinct _ _ pListed qListed := List.inj_on_of_nodup_map apart pListed qListed

theorem BlockTree.onPath (tree : BlockTree env genesis Indexed) (member : Indexed pindex) :
    ∀ p ∈ path pindex, Indexed p := by
  induction pindex with
  | root record =>
    intro p inside
    have same : p = .root record := by simpa [path] using inside
    exact same ▸ member
  | grow parent record ih =>
    intro p inside
    rcases mem_path_grow.mp inside with below | rfl
    · exact ih (tree.parents parent record member).1 p below
    · exact member

/-! ## Where the index stands -/

/-- Connecting and disconnecting move the index along the tree. -/
structure Tracks (ops : BlockOps) (Indexed : CBlockIndex → Prop)
    (Conn : Ledger → CBlockIndex → Prop) : Prop where
  connect : ∀ {pool ledger next tip record}, Indexed (.grow tip record) → Conn ledger tip →
    ops.connectBlock pool ledger (.grow tip record) = some next → Conn next (.grow tip record)
  disconnect : ∀ {ledger next tip record}, Conn ledger (.grow tip record) →
    ops.disconnectBlock ledger (.grow tip record) = some next → Conn next tip
  congr : ∀ {ledger other tip}, txView other.txdb = txView ledger.txdb → Conn ledger tip →
    Conn other tip

theorem Tracks.mono {Fewer : CBlockIndex → Prop} (tracks : Tracks ops Indexed Conn)
    (subset : ∀ tip record, Fewer (.grow tip record) → Indexed (.grow tip record)) :
    Tracks ops Fewer Conn where
  connect member past run := tracks.connect (subset _ _ member) past run
  disconnect past run := tracks.disconnect past run
  congr same past := tracks.congr same past

theorem makeMoves_append {first second : List Move} :
    ∀ ledger : Ledger, makeMoves ops pool (first ++ second) ledger =
      if (makeMoves ops pool first ledger).1 then
        makeMoves ops pool second (makeMoves ops pool first ledger).2
      else makeMoves ops pool first ledger := by
  induction first with
  | nil => intro ledger; rfl
  | cons move rest ih =>
    intro ledger
    cases made : makeMove ops pool ledger move with
    | none => simp [makeMoves, made]
    | some next =>
      simp only [List.cons_append, makeMoves, made]
      exact ih next

variable (tree : BlockTree env genesis Indexed) (lawful : LawfulOps ops)
  (tracks : Tracks ops Indexed Conn)

section Moves
variable {Q : Ledger → CBlockIndex → Prop} {pfork pindexBest : CBlockIndex} {ledger last : Ledger}

/-- What each disconnected block hands to its parent holds where the moves end, which is
the fork unless one of them fails. -/
theorem disconnect_rule (member : pfork ∈ path pindexBest)
    (step : ∀ {ledger next tip record}, .grow tip record ∈ path pindexBest →
      Q ledger (.grow tip record) → ops.disconnectBlock ledger (.grow tip record) = some next →
      Q next tip) : ∀ {ledger last : Ledger}, Q ledger pindexBest →
      makeMoves ops pool ((vDisconnect pfork pindexBest).map .disconnect) ledger = (done, last) →
      ∃ reached, Q last reached ∧ (done = true → reached = pfork) := by
  induction pindexBest, member using path_induction with
  | base =>
    intro ledger last here run
    rw [vDisconnect, above_self] at run
    cases run
    exact ⟨_, here, fun _ => rfl⟩
  | step p record below ih =>
    intro ledger last here run
    simp only [vDisconnect, above_grow below, List.map_cons, makeMoves, makeMove] at run
    split at run
    · cases run
      exact ⟨_, here, nofun⟩
    · rename_i next first
      split_ifs at first
      exact ih (fun inside => step (mem_path_grow.mpr (Or.inl inside)))
        (step (self_mem_path _) here first) run

theorem connect_rule (member : pfork ∈ path pindexNew)
    (step : ∀ {ledger next tip record}, .grow tip record ∈ above pfork pindexNew → Q ledger tip →
      ops.connectBlock pool ledger (.grow tip record) = some next → Q next (.grow tip record)) :
    ∀ {last : Ledger} {done : Bool}, Q ledger pfork →
      makeMoves ops pool ((vConnect pfork pindexNew).map .connect) ledger = (done, last) →
      ∃ reached, Q last reached ∧ (done = true → reached = pindexNew) := by
  induction pindexNew, member using path_induction with
  | base =>
    intro last done here run
    rw [vConnect, above_self] at run
    cases run
    exact ⟨_, here, fun _ => rfl⟩
  | step p record below ih =>
    intro last done here run
    simp only [above_grow below] at step
    rw [vConnect, above_grow below, List.reverse_cons, List.map_append, makeMoves_append] at run
    cases prior : makeMoves ops pool ((vConnect pfork p).map .connect) ledger with
    | mk moved middle =>
      obtain ⟨reached, there, whole⟩ :=
        ih (fun later => step (List.mem_cons_of_mem _ later)) here prior
      rw [vConnect] at prior
      rw [prior] at run
      cases moved with
      | false =>
        cases run
        exact ⟨reached, there, nofun⟩
      | true =>
        obtain rfl := whole rfl
        simp only [if_true, List.map_cons, List.map_nil, makeMoves, makeMove] at run
        split at run
        · cases run
          exact ⟨reached, there, nofun⟩
        · rename_i next connects
          split_ifs at connects
          cases run
          exact ⟨_, step List.mem_cons_self there connects, fun _ => rfl⟩

theorem moves_rule (fromBest : pfork ∈ path pindexBest) (toNew : pfork ∈ path pindexNew)
    (disconnects : ∀ {ledger next tip record}, .grow tip record ∈ path pindexBest →
      Q ledger (.grow tip record) → ops.disconnectBlock ledger (.grow tip record) = some next →
      Q next tip)
    (connects : ∀ {ledger next tip record}, .grow tip record ∈ above pfork pindexNew →
      Q ledger tip → ops.connectBlock pool ledger (.grow tip record) = some next →
      Q next (.grow tip record)) (here : Q ledger pindexBest)
    (run : makeMoves ops pool (moves pfork pindexBest pindexNew) ledger = (done, last)) :
    ∃ reached, Q last reached ∧ (done = true → reached = pindexNew) := by
  rw [moves, makeMoves_append] at run
  cases back : makeMoves ops pool ((vDisconnect pfork pindexBest).map .disconnect) ledger with
  | mk moved middle =>
    obtain ⟨reached, there, whole⟩ := disconnect_rule fromBest disconnects here back
    rw [back] at run
    cases moved with
    | false =>
      cases run
      exact ⟨reached, there, nofun⟩
    | true =>
      obtain rfl := whole rfl
      exact connect_rule toNew connects there run

end Moves

/-! ## Standing at a block -/

/-- The database, the index and the links all stand at `tip`. -/
structure At (Conn : Ledger → CBlockIndex → Prop) (tip : CBlockIndex) (node : ChainState) :
    Prop where
  closed : node.ledger.txdb.activeBatch = none
  record : node.ledger.txdb.store .hashBestChain = some (.hash (getBlockHash tip))
  connected : Conn node.ledger tip
  forward : node.ledger.pnext = links tip

/-- The pointers the tail of `SetBestChain` sets, and the block map, are as before. -/
structure SameMemory (node next : ChainState) : Prop where
  hashBestChain : next.hashBestChain = node.hashBestChain
  pindexBest : next.pindexBest = node.pindexBest
  nBestChainTrust : next.nBestChainTrust = node.nBestChainTrust
  nBestHeight : next.ledger.nBestHeight = node.ledger.nBestHeight
  mapBlockIndex : next.mapBlockIndex = node.mapBlockIndex

theorem SameMemory.trans {first second third : ChainState} (one : SameMemory first second)
    (two : SameMemory second third) : SameMemory first third :=
  ⟨two.hashBestChain.trans one.hashBestChain, two.pindexBest.trans one.pindexBest,
    two.nBestChainTrust.trans one.nBestChainTrust, two.nBestHeight.trans one.nBestHeight,
    two.mapBlockIndex.trans one.mapBlockIndex⟩

theorem sameMemory_invalidChainFound (node : ChainState) (pindexNew : CBlockIndex) :
    SameMemory node (invalidChainFound node pindexNew) := by
  unfold invalidChainFound
  split_ifs <;> exact ⟨rfl, rfl, rfl, rfl, rfl⟩

theorem pnext_invalidChainFound (node : ChainState) (pindexNew : CBlockIndex) :
    (invalidChainFound node pindexNew).ledger.pnext = node.ledger.pnext := by
  unfold invalidChainFound
  split_ifs <;> rfl

section Memory
variable {last : ChainState}
include lawful

theorem InnerResult.memory (result : InnerResult env ops (begun node) pindexNew done next) :
    SameMemory node next ∧
      next.ledger.pnext =
        if done then relink node.ledger.pnext [pindexNew] else node.ledger.pnext := by
  cases result with
  | rejected fails =>
    have dropped : SameMemory node (aborted (begun node)) := ⟨rfl, rfl, rfl, rfl, rfl⟩
    exact ⟨dropped.trans (sameMemory_invalidChainFound _ pindexNew),
      pnext_invalidChainFound _ pindexNew⟩
  | @uncommitted ledger connects fails =>
    have framed := lawful.connect _ _ _ _ connects
    exact ⟨⟨rfl, rfl, rfl, framed.nBestHeight, rfl⟩, framed.pnext⟩
  | @attached ledger pool connects commits cleared =>
    have framed := lawful.connect _ _ _ _ connects
    exact ⟨⟨rfl, rfl, rfl, framed.nBestHeight, rfl⟩, congrArg (relink · [pindexNew]) framed.pnext⟩

/-- `Reorganize` sets no pointer, and moves the links from the old branch to the new one
when it succeeds. -/
theorem ReorganizeResult.memory
    (result : ReorganizeResult env ops (begun node) pindexNew done next) :
    SameMemory node next ∧
      (done = false → next.ledger.pnext = node.ledger.pnext) ∧
      (done = true → ∃ pfork, findFork node.pindexBest pindexNew = some pfork ∧
        next.ledger.pnext = relink (unlink node.ledger.pnext (vDisconnect pfork node.pindexBest))
          (vConnect pfork pindexNew)) := by
  cases result with
  | unrelated fails => exact ⟨⟨rfl, rfl, rfl, rfl, rfl⟩, fun _ => rfl, by simp⟩
  | @stopped pfork ledger forks fails =>
    have framed := framed_makeMoves lawful fails
    exact ⟨⟨rfl, rfl, rfl, framed.nBestHeight, rfl⟩, fun _ => framed.pnext, by simp⟩
  | @uncommitted pfork ledger forks moved fails =>
    have framed : Framed (begun node).ledger ledger := framed_makeMoves lawful moved
    exact ⟨⟨rfl, rfl, rfl, framed.nBestHeight, rfl⟩, fun _ => framed.pnext, by simp⟩
  | @switched pfork ledger pool forks moved commits cleared =>
    have framed := framed_makeMoves lawful moved
    refine ⟨⟨rfl, rfl, rfl, framed.nBestHeight, rfl⟩, by simp, fun _ => ⟨pfork, forks, ?_⟩⟩
    have kept : ledger.pnext = node.ledger.pnext := framed.pnext
    rw [← kept]
    rfl

theorem SecondaryResult.memory {tip : CBlockIndex}
    (result : SecondaryResult env ops blocks node last) :
    (∀ p ∈ blocks, p ∈ path tip) → Along node.ledger.pnext tip →
      SameMemory node last ∧ Along last.ledger.pnext tip := by
  induction result with
  | finished => exact fun _ along => ⟨⟨rfl, rfl, rfl, rfl, rfl⟩, along⟩
  | unreadable fails => exact fun _ along => ⟨⟨rfl, rfl, rfl, rfl, rfl⟩, along⟩
  | failed readable inner =>
    intro _ along
    obtain ⟨memory, forward⟩ := inner.memory lawful
    refine ⟨memory, ?_⟩
    rw [forward]
    exact along
  | attached readable inner others ih =>
    intro inside along
    obtain ⟨memory, forward⟩ := inner.memory lawful
    rw [if_pos rfl] at forward
    have linked : Along _ tip := along.relink [_] (by simpa using inside _ List.mem_cons_self)
    rw [← forward] at linked
    obtain ⟨rest, final⟩ :=
      ih (fun p later => inside p (List.mem_cons_of_mem _ later)) linked
    exact ⟨memory.trans rest, final⟩

end Memory

theorem txView_of_store {a b : CTxDB} (aClosed : a.activeBatch = none) (bClosed : b.activeBatch = none)
    (stores : ∀ hash, a.store (.tx hash) = b.store (.tx hash)) : txView a = txView b := by
  funext hash
  simp only [txView, view, aClosed, bClosed, stores]

theorem writeBestInvalidTrust_closed {txdb : CTxDB} {trust : Nat}
    (closed : txdb.activeBatch = none) : (writeBestInvalidTrust txdb trust).activeBatch = none ∧
      ∀ key, key ≠ .bnBestInvalidTrust →
        (writeBestInvalidTrust txdb trust).store key = txdb.store key := by
  simp only [writeBestInvalidTrust, write, issue, applyOp, closed, true_and]
  intro key different
  exact update_of_ne different _ _

theorem begun_open : (begun node).ledger.txdb.activeBatch.isSome = true := rfl

theorem txView_begun (closed : node.ledger.txdb.activeBatch = none) :
    txView (begun node).ledger.txdb = txView node.ledger.txdb := by
  funext hash
  exact congrArg asTxIndex (congrFun (view_txnBegin _ closed) (.tx hash))

section Standing
variable {tip : CBlockIndex}

section At
variable (standing : At Conn tip node)
include tracks standing

theorem At.begun_connected : Conn (begun node).ledger tip :=
  tracks.congr (txView_begun standing.closed) standing.connected

theorem At.aborted {other : ChainState} (framed : Framed (begun node).ledger other.ledger) :
    At Conn tip (BestChain.aborted other) := by
  have store : other.ledger.txdb.store = node.ledger.txdb.store := framed.queued.store begun_open
  have pnext : other.ledger.pnext = node.ledger.pnext := framed.pnext
  refine ⟨rfl, ?_, tracks.congr ?_ standing.connected, pnext.trans standing.forward⟩
  · exact (congrFun store _).trans standing.record
  · exact txView_of_store rfl standing.closed fun hash => congrFun store _

theorem At.invalidChainFound (pindexNew : CBlockIndex) :
    At Conn tip (BestChain.invalidChainFound node pindexNew) := by
  unfold BestChain.invalidChainFound
  split_ifs
  · obtain ⟨closed, kept⟩ := writeBestInvalidTrust_closed standing.closed
    refine ⟨closed, (kept _ (by decide)).trans standing.record, tracks.congr ?_ standing.connected,
      standing.forward⟩
    exact txView_of_store closed standing.closed fun hash => kept _ (by simp)
  · exact standing

end At

include tracks in
theorem At.commit {ledger : Ledger} {hash : Uint256} {next : CBlockIndex → Option CBlockIndex}
    (connected : Conn ledger tip) (hashed : hash = getBlockHash tip) (forward : next = links tip)
    (shape : node.ledger = { ledger with
      txdb := txnCommit (writeHashBestChain ledger.txdb hash)
      pnext := next }) : At Conn tip node := by
  refine ⟨by rw [shape]; rfl, ?_, tracks.congr ?_ connected, by rw [shape]; exact forward⟩
  · rw [shape, ← hashed]
    simp [writeHashBestChain, view_write]
  · rw [shape]
    funext other
    exact congrFun txView_writeHashBestChain other

include lawful tracks

theorem At.inner_failed (standing : At Conn tip node)
    (result : InnerResult env ops (begun node) pindexNew false next) :
    At Conn tip next ∧ SameMemory node next := by
  refine ⟨?_, (result.memory lawful).1⟩
  cases result with
  | rejected fails => exact (standing.aborted tracks (.refl _)).invalidChainFound tracks pindexNew
  | uncommitted connects fails => exact standing.aborted tracks (lawful.connect _ _ _ _ connects)

include tree in
theorem At.inner_attached (member : Indexed (.grow tip record)) (standing : At Conn tip node)
    (result : InnerResult env ops (begun node) (.grow tip record) true next) :
    At Conn (.grow tip record) next ∧ SameMemory node next := by
  refine ⟨?_, (result.memory lawful).1⟩
  cases result with
  | @attached ledger pool connects commits cleared =>
    have framed := lawful.connect _ _ _ _ connects
    have pnext : ledger.pnext = links tip := framed.pnext.trans standing.forward
    refine At.commit tracks (tracks.connect member (standing.begun_connected tracks) connects)
      (tree.hashed _ member) ?_ rfl
    rw [pnext]
    rfl

theorem At.reorganize_failed {failed : ChainState} (standing : At Conn node.pindexBest node)
    (result : ReorganizeResult env ops (begun node) pindexNew false failed) :
    At Conn node.pindexBest (BestChain.aborted failed) ∧
      SameMemory node (BestChain.aborted failed) := by
  have memory := (result.memory lawful).1
  refine ⟨?_, memory.hashBestChain, memory.pindexBest, memory.nBestChainTrust, memory.nBestHeight,
    memory.mapBlockIndex⟩
  cases result with
  | unrelated fails => exact standing.aborted tracks (.refl _)
  | stopped forks fails => exact standing.aborted tracks (framed_makeMoves lawful fails)
  | @uncommitted pfork ledger forks moved fails =>
    have once : At Conn node.pindexBest (BestChain.aborted { begun node with ledger := ledger }) :=
      standing.aborted tracks (framed_makeMoves lawful moved)
    exact once

include tree in
theorem At.reorganize_switched (member : Indexed pindexNew)
    (standing : At Conn node.pindexBest node)
    (result : ReorganizeResult env ops (begun node) pindexNew true next) :
    At Conn pindexNew next ∧ SameMemory node next := by
  refine ⟨?_, (result.memory lawful).1⟩
  cases result with
  | @switched pfork ledger pool forks moved commits cleared =>
    obtain ⟨fromBest, toNew⟩ := findFork_mem pindexNew pfork forks
    have framed := framed_makeMoves lawful moved
    have pnext : ledger.pnext = links node.pindexBest := framed.pnext.trans standing.forward
    obtain ⟨reached, connected, whole⟩ := moves_rule fromBest toNew
      (fun _ past run => tracks.disconnect past run)
      (fun later past run => tracks.connect
        (tree.onPath member _ ((mem_path_iff toNew).mpr (Or.inr later))) past run)
      (standing.begun_connected tracks) moved
    obtain rfl := whole rfl
    refine At.commit tracks connected rfl ?_ rfl
    rw [pnext]
    exact (congrArg (relink · _) (unlink_above fromBest)).trans (relink_above toNew)

end Standing

/-! ## Postponed blocks -/

theorem postpone_spec (bestTrust : Nat) (pindexNew : CBlockIndex) :
    (postpone bestTrust pindexNew).1 ∈ path pindexNew ∧
      (postpone bestTrust pindexNew).2 = above (postpone bestTrust pindexNew).1 pindexNew ∧
      ((postpone bestTrust pindexNew).1 = pindexNew ∨
        bestTrust < nChainTrust (postpone bestTrust pindexNew).1) := by
  induction pindexNew with
  | root record => exact ⟨self_mem_path _, above_self.symm, Or.inl rfl⟩
  | grow p record ih =>
    obtain ⟨member, blocks, trust⟩ := ih
    unfold postpone
    split_ifs with more
    · refine ⟨mem_path_grow.mpr (Or.inl member), ?_, Or.inr ?_⟩
      · rw [above_grow member, ← blocks]
      · rcases trust with same | above
        · rw [same]
          exact more
        · exact above
    · exact ⟨self_mem_path _, above_self.symm, Or.inl rfl⟩

theorem postponed_eq (node : ChainState) (pindexNew : CBlockIndex) :
    postponed node pindexNew = vConnect (pindexIntermediate node pindexNew) pindexNew := by
  rw [postponed, (postpone_spec _ _).2.1]
  rfl

theorem postponed_child : postponed node (.grow node.pindexBest record) = [] := by
  simp [postponed, postpone]

theorem vConnect_nil (inside : pindex ∈ path pindexNew) (empty : [] = vConnect pindex pindexNew) :
    pindex = pindexNew := by
  rcases above_reverse_cons inside with same | ⟨record, _, split⟩
  · exact same
  · rw [vConnect, split] at empty
    cases empty

theorem vConnect_cons {p : CBlockIndex} {rest : List CBlockIndex} (inside : pindex ∈ path pindexNew)
    (shape : p :: rest = vConnect pindex pindexNew) : pindex ≠ pindexNew ∧ ∃ record,
      p = .grow pindex record ∧ p ∈ path pindexNew ∧ rest = vConnect p pindexNew := by
  rcases above_reverse_cons inside with same | ⟨record, next, split⟩
  · rw [same, vConnect, above_self] at shape
    cases shape
  · rw [vConnect, split] at shape
    obtain ⟨rfl, rfl⟩ := List.cons.inj shape
    refine ⟨?_, record, rfl, next, rfl⟩
    rintro rfl
    exact grow_not_mem_path pindex record next

/-! ## The calls of ConnectBlock -/

structure ConnectCall where
  pool : PoolLookup
  ledger : Ledger
  pindex : CBlockIndex

def ConnectCall.accepted (ops : BlockOps) (call : ConnectCall) : Bool :=
  (ops.connectBlock call.pool call.ledger call.pindex).isSome

/-- The calls the loops of `Reorganize` make, the last of which may fail. -/
def moveCalls (ops : BlockOps) (pool : PoolLookup) : List Move → Ledger → List ConnectCall
  | [], _ => []
  | move :: rest, ledger =>
    (match move with
      | .connect pindex => if ops.readable pindex then [⟨pool, ledger, pindex⟩] else []
      | .disconnect _ => []) ++
    match makeMove ops pool ledger move with
    | none => []
    | some next => moveCalls ops pool rest next

def secondaryCalls (env : Env) (ops : BlockOps) : List CBlockIndex → ChainState → List ConnectCall
  | [], _ => []
  | pindex :: rest, node =>
    if ops.readable pindex then
      ⟨lookup node.mempool, (begun node).ledger, pindex⟩ ::
        match setBestChainInner env ops (begun node) pindex with
        | .ok (true, next) => secondaryCalls env ops rest next
        | _ => []
    else []

/-- The calls for the new block if it extends the best chain, or else of `Reorganize`. -/
def switchCalls (ops : BlockOps) (node : ChainState) (pindexNew : CBlockIndex) :
    List ConnectCall :=
  if (blockOf pindexNew).hashPrevBlock = node.hashBestChain then
    [⟨lookup node.mempool, (begun node).ledger, pindexNew⟩]
  else
    match findFork node.pindexBest (pindexIntermediate node pindexNew) with
    | none => []
    | some pfork => moveCalls ops (lookup node.mempool)
        (moves pfork node.pindexBest (pindexIntermediate node pindexNew)) (begun node).ledger

/-- The calls for the postponed blocks. -/
def postponedCalls (env : Env) (ops : BlockOps) (node : ChainState) (pindexNew : CBlockIndex) :
    List ConnectCall :=
  match reorganize env ops (begun node) (pindexIntermediate node pindexNew) with
  | .ok (true, middle) => secondaryCalls env ops (postponed node pindexNew) middle
  | _ => []

/-- Why a postponed block was not attached. -/
inductive Blocked (ops : BlockOps) (calls : List ConnectCall) (pindex : CBlockIndex) : Prop where
  | unreadable (fails : ops.readable pindex = false)
  | uncommitted (fails : ops.commits pindex = false)
  | rejected {pool : PoolLookup} {ledger : Ledger} (made : ⟨pool, ledger, pindex⟩ ∈ calls)
      (fails : ops.connectBlock pool ledger pindex = none)

structure Passed (ops : BlockOps) (calls : List ConnectCall) (pindex : CBlockIndex) : Prop where
  readable : ops.readable pindex = true
  commits : ops.commits pindex = true
  connects : ∃ pool ledger, ⟨pool, ledger, pindex⟩ ∈ calls ∧
    (ops.connectBlock pool ledger pindex).isSome = true

theorem Blocked.mono {calls more : List ConnectCall} (blocked : Blocked ops calls pindex)
    (subset : ∀ call ∈ calls, call ∈ more) : Blocked ops more pindex := by
  cases blocked with
  | unreadable fails => exact .unreadable fails
  | uncommitted fails => exact .uncommitted fails
  | rejected made fails => exact .rejected (subset _ made) fails

theorem not_blocked {calls : List ConnectCall} (readable : ops.readable pindex = true)
    (commits : ops.commits pindex = true)
    (accepted : ∀ call ∈ calls, call.pindex = pindex → call.accepted ops = true) :
    ¬Blocked ops calls pindex := by
  intro blocked
  cases blocked with
  | unreadable fails =>
    rw [readable] at fails
    cases fails
  | uncommitted fails =>
    rw [commits] at fails
    cases fails
  | rejected made fails =>
    have succeeds := accepted _ made rfl
    rw [ConnectCall.accepted, fails] at succeeds
    cases succeeds

section Loop
variable {rest : List CBlockIndex} (readable : ops.readable pindex = true)
include readable

theorem secondaryCalls_head : ⟨lookup node.mempool, (begun node).ledger, pindex⟩ ∈
    secondaryCalls env ops (pindex :: rest) node := by
  rw [secondaryCalls, if_pos readable]
  exact List.mem_cons_self

theorem secondaryCalls_tail (inner : InnerResult env ops (begun node) pindex true next) :
    ∀ call ∈ secondaryCalls env ops rest next,
      call ∈ secondaryCalls env ops (pindex :: rest) node := by
  intro call later
  rw [secondaryCalls, if_pos readable, inner.run]
  exact List.mem_cons_of_mem _ later

theorem InnerResult.blocked (inner : InnerResult env ops (begun node) pindex false next) :
    Blocked ops (secondaryCalls env ops (pindex :: rest) node) pindex := by
  cases inner with
  | rejected fails => exact .rejected (secondaryCalls_head readable) fails
  | uncommitted connects fails => exact .uncommitted fails

end Loop

theorem postponedCalls_eq (reorganised : ReorganizeResult env ops (begun node)
      (pindexIntermediate node pindexNew) true next) :
    postponedCalls env ops node pindexNew =
      secondaryCalls env ops (postponed node pindexNew) next := by
  rw [postponedCalls, reorganised.run]

section Secondary
variable (member : Indexed pindexNew)
include tree lawful tracks member

/-- The node ends where the postponed blocks got to, and at the last of them exactly
when all of them passed. -/
theorem At.secondary {last : ChainState} (result : SecondaryResult env ops blocks node last) :
    ∀ {pindex : CBlockIndex}, pindex ∈ path pindexNew → blocks = vConnect pindex pindexNew →
      At Conn pindex node →
      ∃ reached ∈ path pindexNew, At Conn reached last ∧ SameMemory node last ∧
        ((reached = pindexNew ∧ ∀ p ∈ blocks, Passed ops (secondaryCalls env ops blocks node) p) ∨
          (reached ≠ pindexNew ∧
            ∃ p ∈ blocks, Blocked ops (secondaryCalls env ops blocks node) p)) := by
  induction result with
  | @finished node =>
    intro pindex inside shape standing
    exact ⟨pindex, inside, standing, ⟨rfl, rfl, rfl, rfl, rfl⟩,
      Or.inl ⟨vConnect_nil inside shape, by simp⟩⟩
  | @unreadable p rest node fails =>
    intro pindex inside shape standing
    obtain ⟨short, _⟩ := vConnect_cons inside shape
    exact ⟨pindex, inside, standing, ⟨rfl, rfl, rfl, rfl, rfl⟩,
      Or.inr ⟨short, p, List.mem_cons_self, .unreadable fails⟩⟩
  | @failed p rest node next readable inner =>
    intro pindex inside shape standing
    obtain ⟨short, _⟩ := vConnect_cons inside shape
    obtain ⟨stays, memory⟩ := standing.inner_failed lawful tracks inner
    exact ⟨pindex, inside, stays, memory, Or.inr ⟨short, p, List.mem_cons_self,
      inner.blocked readable⟩⟩
  | @attached p rest node next last readable inner others ih =>
    intro pindex inside shape standing
    obtain ⟨_, record, rfl, onward, tail⟩ := vConnect_cons inside shape
    have indexed := tree.onPath member _ onward
    obtain ⟨moved, memory⟩ := standing.inner_attached tree lawful tracks indexed inner
    obtain ⟨reached, inside', final, memory', outcome⟩ := ih onward tail moved
    refine ⟨reached, inside', final, memory.trans memory', ?_⟩
    rcases outcome with ⟨same, passed⟩ | ⟨short, p, later, blocked⟩
    · refine Or.inl ⟨same, fun p member => ?_⟩
      rcases List.mem_cons.mp member with rfl | later
      · cases inner with
        | attached connects commits cleared =>
          exact ⟨readable, commits, _, _, secondaryCalls_head readable,
            Option.isSome_of_eq_some connects⟩
      · obtain ⟨read, committed, pool, ledger, made, connects⟩ := passed p later
        exact ⟨read, committed, pool, ledger, secondaryCalls_tail readable inner _ made, connects⟩
    · exact Or.inr ⟨short, p, List.mem_cons_of_mem _ later,
        blocked.mono (secondaryCalls_tail readable inner)⟩

/-- What each attached block carries on, the postponed blocks carry to the last of them, if
none of them is blocked. -/
theorem At.secondary_carries {Q : CBlockIndex → ChainState → Prop} {last : ChainState}
    (result : SecondaryResult env ops blocks node last) :
    ∀ {pindex : CBlockIndex}, pindex ∈ path pindexNew → blocks = vConnect pindex pindexNew →
      (∀ p ∈ blocks, ¬Blocked ops (secondaryCalls env ops blocks node) p) →
      (∀ {tip record node next}, .grow tip record ∈ blocks → Indexed (.grow tip record) →
        At Conn tip node → Q tip node →
        InnerResult env ops (begun node) (.grow tip record) true next →
        Q (.grow tip record) next) →
      At Conn pindex node → Q pindex node → Q pindexNew last := by
  induction result with
  | finished =>
    intro pindex inside shape _ _ _ here
    exact vConnect_nil inside shape ▸ here
  | unreadable fails =>
    intro pindex _ _ free
    exact absurd (.unreadable fails) (free _ List.mem_cons_self)
  | failed readable inner =>
    intro pindex _ _ free
    exact absurd (inner.blocked readable) (free _ List.mem_cons_self)
  | attached readable inner others ih =>
    intro pindex inside shape free step standing here
    obtain ⟨_, record, rfl, onward, tail⟩ := vConnect_cons inside shape
    have indexed := tree.onPath member _ onward
    obtain ⟨moved, _⟩ := standing.inner_attached tree lawful tracks indexed inner
    exact ih onward tail (fun p later blocked => free p (List.mem_cons_of_mem _ later)
        (blocked.mono (secondaryCalls_tail readable inner)))
      (fun later => step (List.mem_cons_of_mem _ later)) moved
      (step List.mem_cons_self indexed standing here inner)

end Secondary

/-! ## Whole calls -/

/-- A state between two calls: no open transaction, and no link off the best chain. -/
structure Settled (Conn : Ledger → CBlockIndex → Prop) (node : ChainState) : Prop where
  standing : At Conn node.pindexBest node
  memory : node.hashBestChain = getBlockHash node.pindexBest

theorem settled_genesis {wallets : List CWallet}
    (connected : Conn (genesisState genesis wallets).ledger (.root genesis)) :
    Settled Conn (genesisState genesis wallets) := by
  refine ⟨⟨rfl, ?_, connected, update_eq_self _ _⟩, rfl⟩
  have written := congrFun (view_write (txnBegin (writeIndex (insertIndex
    ⟨⟨⟨fun _ => none, none⟩, wallets, fun _ => none, fun _ => 0, fun _ => 0, 0⟩, emptyMemPool, ∅, 0,
      .root genesis, 0, 0⟩ (.root genesis)) (.root genesis)).ledger.txdb) .hashBestChain
    (.hash genesis.phashBlock)) .hashBestChain
  rw [update_self] at written
  exact written

include tree in
theorem child_of_best (memory : node.hashBestChain = getBlockHash node.pindexBest)
    (best : Indexed node.pindexBest) (member : Indexed pindexNew)
    (origin : pindexNew = .root genesis → genesis.block.hashPrevBlock ≠ node.hashBestChain)
    (child : (blockOf pindexNew).hashPrevBlock = node.hashBestChain) :
    ∃ record, pindexNew = .grow node.pindexBest record := by
  cases pindexNew with
  | root record =>
    obtain rfl : record = genesis := by simpa [rootOf] using tree.rooted _ member
    exact absurd child (origin rfl)
  | grow p record =>
    obtain ⟨indexed, parent⟩ := tree.parents p record member
    have hashes : getBlockHash p = getBlockHash node.pindexBest :=
      parent.symm.trans (child.trans memory)
    exact ⟨record, by rw [tree.distinct p _ indexed best hashes]⟩

include tree lawful tracks in
theorem reached_of_set (best : Indexed node.pindexBest) (member : Indexed pindexNew)
    (origin : pindexNew = .root genesis → genesis.block.hashPrevBlock ≠ node.hashBestChain)
    (settled : Settled Conn node) (result : SetResult env ops node pindexNew true next) :
    ∃ reached ∈ path pindexNew, ∃ last, next = newBest env pindexNew last ∧
      At Conn reached last ∧ SameMemory node last ∧
      ((reached = pindexNew ∧ ∀ p ∈ postponed node pindexNew,
          Passed ops (postponedCalls env ops node pindexNew) p) ∨
        (reached ≠ pindexNew ∧ ∃ p ∈ postponed node pindexNew,
          Blocked ops (postponedCalls env ops node pindexNew) p)) := by
  cases result with
  | @extended last child inner =>
    obtain ⟨record, rfl⟩ := child_of_best tree settled.memory best member origin child
    obtain ⟨standing, memory⟩ :=
      settled.standing.inner_attached tree lawful tracks member inner
    refine ⟨_, self_mem_path _, last, rfl, standing, memory, Or.inl ⟨rfl, ?_⟩⟩
    rw [postponed_child]
    simp
  | @switched middle last branch reorganised secondary =>
    have inside := (postpone_spec (nChainTrust node.pindexBest) pindexNew).1
    obtain ⟨standing, memory⟩ := settled.standing.reorganize_switched tree lawful tracks
      (tree.onPath member _ inside) reorganised
    obtain ⟨reached, onPath, final, memory', outcome⟩ :=
      At.secondary tree lawful tracks member secondary inside (postponed_eq node pindexNew) standing
    rw [← postponedCalls_eq reorganised] at outcome
    exact ⟨reached, onPath, last, rfl, final, memory.trans memory', outcome⟩

include tracks in
theorem At.newBest {tip : CBlockIndex} {last : ChainState} (standing : At Conn tip last) :
    At Conn tip (BestChain.newBest env pindexNew last) := by
  have same : txView (BestChain.newBest env pindexNew last).ledger.txdb =
      txView last.ledger.txdb := rfl
  exact ⟨standing.closed, standing.record, tracks.congr same standing.connected, standing.forward⟩

include lawful tracks in
theorem Settled.failed (settled : Settled Conn node)
    (result : SetResult env ops node pindexNew false next) :
    At Conn node.pindexBest next ∧ SameMemory node next := by
  cases result with
  | notExtended child inner => exact settled.standing.inner_failed lawful tracks inner
  | @notSwitched failed branch reorganised =>
    obtain ⟨standing, memory⟩ :=
      settled.standing.reorganize_failed lawful tracks reorganised
    exact ⟨standing.invalidChainFound tracks pindexNew,
      memory.trans (sameMemory_invalidChainFound _ pindexNew)⟩

end SynergyChain.Switch
