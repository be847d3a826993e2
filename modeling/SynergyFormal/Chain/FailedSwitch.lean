import SynergyFormal.Chain.Core
import SynergyFormal.Ledger.WalletFlags

/-!
# What a failed switch leaves behind

When `SetBestChain` returns false its database transaction is dropped and the memory of
the chain is as before.  The wallets are not part of the transaction: they keep the
updates made for every block that was disconnected or connected before the failure.
Whether the spent flags come out as they were can be read off the transactions of those
blocks and the wallets before the call.
-/

set_option autoImplicit false

namespace SynergyChain.FailedSwitch

open SynergyData SynergyLedger
open SynergyLib.Tree Transaction Block TxDB Inputs Wallet WalletFlags ConnectBlock
  SynergyPool.MemPool BestChain Switch SynergyChain.Core

/-! ## The moves that were made -/

/-- The moves that are tried, each with whether it goes through. -/
def moveAnswers (ops : BlockOps) (pool : PoolLookup) : List Move → Ledger → List (Move × Bool)
  | [], _ => []
  | move :: rest, ledger =>
    match makeMove ops pool ledger move with
    | none => [(move, false)]
    | some next => (move, true) :: moveAnswers ops pool rest next

/-- Those of a call: the new block on the tip, or the blocks of the two branches up to the
first failure. -/
def switchAnswers (ops : BlockOps) (node : ChainState) (pindexNew : CBlockIndex) :
    List (Move × Bool) :=
  if (blockOf pindexNew).hashPrevBlock = node.hashBestChain then
    [(.connect pindexNew,
      (ops.connectBlock (lookup node.mempool) (begun node).ledger pindexNew).isSome)]
  else
    match findFork node.pindexBest (pindexIntermediate node pindexNew) with
    | none => []
    | some pfork => moveAnswers ops (lookup node.mempool)
        (moves pfork node.pindexBest (pindexIntermediate node pindexNew)) (begun node).ledger

def made (answers : List (Move × Bool)) : List Move := (answers.filter Prod.snd).map Prod.fst

/-- The calls of `SyncWithWallets` for one block. -/
def syncsOf (env : Env) : Move → List Sync
  | .disconnect pindex => (blockOf pindex).vtx.map .disconnected
  | .connect pindex => (blockOf pindex).vtx.map (.connected (getHash env (blockOf pindex)))

def syncAll (env : Env) (syncs : List Sync) (wallets : List CWallet) : List CWallet :=
  wallets.map fun w => syncs.foldl (applySync env) w

variable {env : Env} {vtx : List CTransaction} {node next : ChainState} {pindexNew : CBlockIndex}
  {ops : BlockOps}

theorem syncAll_append {first second : List Sync} {wallets : List CWallet} :
    syncAll env (first ++ second) wallets = syncAll env second (syncAll env first wallets) := by
  simp [syncAll, List.map_map, List.foldl_append, Function.comp_def]

/-! ## Wallets along the moves -/

structure SyncsWallets (env : Env) (ops : BlockOps) : Prop where
  connect : ∀ pool ledger pindex next, ops.connectBlock pool ledger pindex = some next →
    next.wallets = syncAll env (syncsOf env (.connect pindex)) ledger.wallets
  disconnect : ∀ ledger pindex next, ops.disconnectBlock ledger pindex = some next →
    next.wallets = syncAll env (syncsOf env (.disconnect pindex)) ledger.wallets

theorem foldl_syncConnect {hashBlock : Uint256} :
    ∀ wallets : List CWallet, vtx.foldl (syncConnect env hashBlock) wallets =
      syncAll env (vtx.map (.connected hashBlock)) wallets := by
  induction vtx with
  | nil => intro wallets; simp [syncAll]
  | cons tx vtx ih =>
    intro wallets
    rw [List.foldl_cons, ih, List.map_cons,
      show Sync.connected hashBlock tx :: vtx.map (.connected hashBlock) =
        [.connected hashBlock tx] ++ vtx.map (.connected hashBlock) from rfl, syncAll_append]
    rfl

theorem foldl_syncDisconnect : ∀ wallets : List CWallet, vtx.foldl syncDisconnect wallets =
      syncAll env (vtx.map .disconnected) wallets := by
  have one : ∀ (tx : CTransaction) (wallets : List CWallet),
      syncDisconnect wallets tx = syncAll env [.disconnected tx] wallets := by
    intro tx wallets
    cases stake : isCoinStake tx <;> simp [syncDisconnect, syncAll, applySync, stake]
  induction vtx with
  | nil => intro wallets; simp [syncAll]
  | cons tx vtx ih =>
    intro wallets
    rw [List.foldl_cons, ih, one, ← syncAll_append]
    rfl

theorem syncsWallets_core {adjustedTime : CBlockIndex → Int}
    {checkStakeModifier readable commits commitsIndex : CBlockIndex → Bool} :
    SyncsWallets env (withDisk (coreOps env adjustedTime checkStakeModifier) readable commits
      commitsIndex) := by
  refine ⟨fun pool ledger pindex next run => ?_, fun ledger pindex next run => ?_⟩
  · obtain ⟨_, pass, _, _, rfl⟩ := connectBlock_cases run
    exact foldl_syncConnect _
  · obtain ⟨txdb, _, rfl⟩ := Option.map_eq_some_iff.mp run
    exact foldl_syncDisconnect _

section Moves

theorem makeMove_wallets (syncs : SyncsWallets env ops) {pool : PoolLookup} {ledger next : Ledger}
    {move : Move} (run : makeMove ops pool ledger move = some next) :
    next.wallets = syncAll env (syncsOf env move) ledger.wallets := by
  cases move with
  | disconnect pindex =>
    simp only [makeMove] at run
    split_ifs at run
    exact syncs.disconnect ledger pindex next run
  | connect pindex =>
    simp only [makeMove] at run
    split_ifs at run
    exact syncs.connect pool ledger pindex next run

theorem makeMoves_wallets (syncs : SyncsWallets env ops) (pool : PoolLookup) (list : List Move) :
    ∀ ledger : Ledger, (makeMoves ops pool list ledger).2.wallets =
      syncAll env ((made (moveAnswers ops pool list ledger)).flatMap (syncsOf env))
        ledger.wallets := by
  induction list with
  | nil => intro ledger; simp [makeMoves, moveAnswers, made, syncAll]
  | cons move rest ih =>
    intro ledger
    cases step : makeMove ops pool ledger move with
    | none => simp [makeMoves, moveAnswers, step, made, syncAll]
    | some next =>
      have one : made ((move, true) :: moveAnswers ops pool rest next) =
          move :: made (moveAnswers ops pool rest next) := by simp [made]
      simp only [makeMoves, moveAnswers, step, one, List.flatMap_cons]
      rw [ih next, makeMove_wallets syncs step, ← syncAll_append]

end Moves

/-! ## The rest of the state -/

/-- The committed index, the links, the tip and the pool are as before. -/
structure Frozen (node next : ChainState) : Prop where
  index : ∀ hash, next.ledger.txdb.store (.tx hash) = node.ledger.txdb.store (.tx hash)
  pnext : next.ledger.pnext = node.ledger.pnext
  pindexBest : next.pindexBest = node.pindexBest
  mempool : next.mempool = node.mempool

theorem frozen_aborted {other : ChainState} (framed : Framed (begun node).ledger other.ledger)
    (pindexBest : other.pindexBest = node.pindexBest) (mempool : other.mempool = node.mempool) :
    Frozen node (aborted other) :=
  ⟨fun _ => congrFun (framed.queued.store begun_open) _, framed.pnext, pindexBest, mempool⟩

theorem Frozen.invalidChainFound (frozen : Frozen node (aborted next)) (pindexNew : CBlockIndex) :
    Frozen node (BestChain.invalidChainFound (aborted next) pindexNew) := by
  unfold BestChain.invalidChainFound
  split_ifs
  · have closed : (aborted next).ledger.txdb.activeBatch = none := rfl
    obtain ⟨_, kept⟩ := writeBestInvalidTrust_closed closed
    exact ⟨fun hash => (kept _ (by simp)).trans (frozen.index hash), frozen.pnext,
      frozen.pindexBest, frozen.mempool⟩
  · exact frozen

theorem wallets_invalidChainFound :
    (invalidChainFound node pindexNew).ledger.wallets = node.ledger.wallets := by
  unfold invalidChainFound
  split_ifs <;> rfl

theorem moved_effect (lawful : LawfulOps ops) (syncs : SyncsWallets env ops) {pfork : CBlockIndex}
    {ledger : Ledger} {done : Bool}
    (branch : (blockOf pindexNew).hashPrevBlock ≠ node.hashBestChain)
    (forks : findFork node.pindexBest (pindexIntermediate node pindexNew) = some pfork)
    (run : makeMoves ops (lookup node.mempool)
      (moves pfork node.pindexBest (pindexIntermediate node pindexNew)) (begun node).ledger =
        (done, ledger)) :
    Frozen node (aborted { begun node with ledger := ledger }) ∧ ledger.wallets =
      syncAll env ((made (switchAnswers ops node pindexNew)).flatMap (syncsOf env))
        node.ledger.wallets := by
  refine ⟨frozen_aborted (framed_makeMoves lawful run) rfl rfl, ?_⟩
  have wallets := makeMoves_wallets syncs (lookup node.mempool)
    (moves pfork node.pindexBest (pindexIntermediate node pindexNew)) (begun node).ledger
  rw [run] at wallets
  simp only [switchAnswers, branch, if_false, forks]
  exact wallets

theorem failed_effect (lawful : LawfulOps ops) (syncs : SyncsWallets env ops)
    (result : SetResult env ops node pindexNew false next) :
    Frozen node next ∧ next.ledger.wallets =
      syncAll env ((made (switchAnswers ops node pindexNew)).flatMap (syncsOf env))
        node.ledger.wallets := by
  have untouched : Frozen node (invalidChainFound (aborted (begun node)) pindexNew) :=
    (frozen_aborted (.refl _) rfl rfl).invalidChainFound pindexNew
  have nothing : made (switchAnswers ops node pindexNew) = [] →
      (invalidChainFound (aborted (begun node)) pindexNew).ledger.wallets =
        syncAll env ((made (switchAnswers ops node pindexNew)).flatMap (syncsOf env))
          node.ledger.wallets := by
    intro none
    rw [none, wallets_invalidChainFound]
    simp [syncAll, aborted, begun, withTxdb]
  cases result with
  | notExtended child inner =>
    cases inner with
    | rejected fails =>
      have call : ops.connectBlock (lookup node.mempool) (begun node).ledger pindexNew = none :=
        fails
      exact ⟨untouched, nothing (by simp [switchAnswers, made, child, call])⟩
    | @uncommitted ledger connects fails =>
      have call : ops.connectBlock (lookup node.mempool) (begun node).ledger pindexNew =
        some ledger := connects
      have one : made (switchAnswers ops node pindexNew) = [.connect pindexNew] := by
        simp [switchAnswers, made, child, call]
      have wallets := syncs.connect _ _ _ _ call
      refine ⟨frozen_aborted (lawful.connect _ _ _ _ connects) rfl rfl, ?_⟩
      rw [one, List.flatMap_singleton]
      exact wallets
  | @notSwitched failed branch reorganised =>
    cases reorganised with
    | unrelated fails =>
      have search : findFork node.pindexBest (pindexIntermediate node pindexNew) = none := fails
      exact ⟨untouched, nothing (by simp [switchAnswers, made, branch, search])⟩
    | @stopped pfork ledger forks fails =>
      obtain ⟨frozen, wallets⟩ := moved_effect lawful syncs branch forks fails
      refine ⟨frozen.invalidChainFound pindexNew, ?_⟩
      rw [wallets_invalidChainFound]
      exact wallets
    | @uncommitted pfork ledger forks moved fails =>
      obtain ⟨frozen, wallets⟩ := moved_effect lawful syncs branch forks moved
      refine ⟨frozen.invalidChainFound pindexNew, ?_⟩
      rw [wallets_invalidChainFound]
      exact wallets

/-! ## The branches

What a call gets through, from a table of the moves that fail. -/

/-- The blocks to disconnect and the blocks to connect. -/
def branches (node : ChainState) (pindexNew : CBlockIndex) : List CBlockIndex × List CBlockIndex :=
  if (blockOf pindexNew).hashPrevBlock = node.hashBestChain then ([], [pindexNew])
  else
    match findFork node.pindexBest (pindexIntermediate node pindexNew) with
    | none => ([], [])
    | some pfork => (vDisconnect pfork node.pindexBest,
        vConnect pfork (pindexIntermediate node pindexNew))

section Table
variable (outcome : Move → Bool) (node : ChainState) (pindexNew : CBlockIndex)

/-- The blocks that are disconnected before the first failure. -/
def leaving : List CBlockIndex :=
  (branches node pindexNew).1.takeWhile fun p => outcome (.disconnect p)

/-- The blocks that are connected before it. -/
def joining : List CBlockIndex :=
  if (branches node pindexNew).1.all fun p => outcome (.disconnect p) then
    (branches node pindexNew).2.takeWhile fun p => outcome (.connect p)
  else []

/-- Their transactions. -/
def gone : List CTransaction := (leaving outcome node pindexNew).flatMap fun p => (blockOf p).vtx

def joined (env : Env) : List (Uint256 × CTransaction) :=
  (joining outcome node pindexNew).flatMap fun p =>
    (blockOf p).vtx.map fun tx => (getHash env (blockOf p), tx)

end Table

section Answers
variable {outcome : Move → Bool}

theorem made_moveAnswers {pool : PoolLookup} (list : List Move) : ∀ ledger : Ledger,
    (∀ answer ∈ moveAnswers ops pool list ledger, answer.2 = outcome answer.1) →
      made (moveAnswers ops pool list ledger) = list.takeWhile outcome := by
  induction list with
  | nil => intro ledger _; rfl
  | cons move rest ih =>
    intro ledger answers
    unfold moveAnswers at answers ⊢
    cases step : makeMove ops pool ledger move with
    | none =>
      rw [step] at answers
      have fails := answers _ List.mem_cons_self
      simp [made, ← fails]
    | some next =>
      rw [step] at answers
      obtain ⟨passes, later⟩ := List.forall_mem_cons.mp answers
      have tail := ih next later
      simp only [made] at tail
      simp [made, ← passes, tail]

theorem takeWhile_moves (back forth : List CBlockIndex) :
    (back.map Move.disconnect ++ forth.map Move.connect).takeWhile outcome =
      (back.takeWhile fun p => outcome (.disconnect p)).map .disconnect ++
        (if back.all fun p => outcome (.disconnect p) then forth.takeWhile fun p => outcome (.connect p)
        else []).map .connect := by
  induction back with
  | nil => simp [List.takeWhile_map, Function.comp_def]
  | cons p back ih =>
    rw [List.map_cons, List.cons_append, List.takeWhile_cons, List.takeWhile_cons, ih, List.all_cons]
    cases outcome (.disconnect p) <;> simp

theorem made_switchAnswers
    (answers : ∀ answer ∈ switchAnswers ops node pindexNew, answer.2 = outcome answer.1) :
    made (switchAnswers ops node pindexNew) = (leaving outcome node pindexNew).map .disconnect ++
      (joining outcome node pindexNew).map .connect := by
  by_cases child : (blockOf pindexNew).hashPrevBlock = node.hashBestChain
  · simp only [switchAnswers, leaving, joining, branches, if_pos child] at answers ⊢
    have only := answers _ List.mem_cons_self
    dsimp only at only
    cases connects : outcome (.connect pindexNew) <;> simp [made, only, connects]
  · simp only [switchAnswers, leaving, joining, branches, if_neg child] at answers ⊢
    cases forks : findFork node.pindexBest (pindexIntermediate node pindexNew) with
    | none => simp [made]
    | some pfork =>
      rw [forks] at answers
      exact (made_moveAnswers _ _ answers).trans (takeWhile_moves _ _)

theorem syncs_switchAnswers
    (answers : ∀ answer ∈ switchAnswers ops node pindexNew, answer.2 = outcome answer.1) :
    (made (switchAnswers ops node pindexNew)).flatMap (syncsOf env) =
      (gone outcome node pindexNew).map .disconnected ++
        (joined outcome node pindexNew env).map fun c => .connected c.1 c.2 := by
  rw [made_switchAnswers answers]
  simp [gone, joined, syncsOf, List.flatMap_map, List.map_flatMap, Function.comp_def]

end Answers

/-! ## When nothing is left behind -/

/-- A switch without effect on what can be spent. -/
structure SwitchUndone (node next : ChainState) : Prop extends Frozen node next where
  flags : List.Forall₂ SameFlags node.ledger.wallets next.ledger.wallets

/-- For any table of the moves that fail: the flags stay exactly if the transactions of the blocks
before the first failure keep them. -/
theorem switch_undone_iff (env : Env) (Known : CTransaction → Prop)
    (adjustedTime : CBlockIndex → Int)
    (checkStakeModifier readable commits commitsIndex : CBlockIndex → Bool)
    (outcome : Move → Bool) (node next : ChainState) (pindexNew : CBlockIndex)
    (distinct : ∀ a b, Known a → Known b → getTxHash env a = getTxHash env b → a.vin = b.vin)
    (wallets : ∀ w ∈ node.ledger.wallets, KnownWallet env Known w)
    (known : ∀ p ∈ (branches node pindexNew).2, ∀ tx ∈ (blockOf p).vtx, Known tx)
    (answers : ∀ answer ∈ switchAnswers (withDisk (coreOps env adjustedTime checkStakeModifier)
      readable commits commitsIndex) node pindexNew, answer.2 = outcome answer.1)
    (run : setBestChain env (withDisk (coreOps env adjustedTime checkStakeModifier) readable commits
      commitsIndex) node pindexNew = .ok (false, next)) :
    SwitchUndone node next ↔ ∀ w ∈ node.ledger.wallets, KeepsFlags env w
      (gone outcome node pindexNew) (joined outcome node pindexNew env) := by
  obtain ⟨frozen, after⟩ := failed_effect
    ((lawful_coreOps env adjustedTime checkStakeModifier).withDisk readable commits commitsIndex)
    syncsWallets_core (setResult run)
  have branch : ∀ c ∈ joined outcome node pindexNew env, Known c.2 := by
    intro c member
    obtain ⟨p, listed, inside⟩ := List.mem_flatMap.mp member
    obtain ⟨tx, ofBlock, rfl⟩ := List.mem_map.mp inside
    refine known p ?_ tx ofBlock
    unfold joining at listed
    split_ifs at listed
    · exact (List.takeWhile_sublist _).subset listed
    · cases listed
  rw [syncs_switchAnswers answers] at after
  have each : ∀ w ∈ node.ledger.wallets, _ ↔ KeepsFlags env w (gone outcome node pindexNew)
      (joined outcome node pindexNew env) := fun w member =>
    sameFlags_iff_keepsFlags distinct (wallets w member) branch
  constructor
  · intro undone w member
    have flags := undone.flags
    rw [after, syncAll, List.forall₂_map_right_iff, List.forall₂_same] at flags
    exact (each w member).mp (flags w member)
  · intro keeps
    refine ⟨frozen, ?_⟩
    rw [after, syncAll, List.forall₂_map_right_iff, List.forall₂_same]
    intro w member
    exact (each w member).mpr (keeps w member)

/-! ### Two failed switches

The wallet owns both outputs of `savingsTx`.  `stakedIndex` spends them, one of them in
a coinstake; `spentIndex` spends one in an ordinary transaction. -/

def savingsTx : CTransaction := toyTx [⟨7, 0⟩] [pay 1000000000, pay 1000000000]
def savingsPos : CDiskTxPos := ⟨1, 400, 500⟩
def savingsHash : Uint256 := getTxHash (toyEnv []) savingsTx
def savingsEnv : Env := toyEnv [(savingsTx, savingsPos)]
def savingsOps : BlockOps :=
  withDisk (toyOps savingsEnv) (fun _ => true) (fun _ => true) (fun _ => true)

def savingsWallet : CWallet :=
  ⟨AList.insert savingsHash ⟨savingsTx, 0, [false, false]⟩ ∅, fun script => script == [0x51]⟩

def savingsState : ChainState :=
  let node := genesisState toyGenesis [savingsWallet]
  withTxdb node (updateTxIndex node.ledger.txdb savingsHash (newTxIndex savingsPos 2))

def spendingTx : CTransaction := toyTx [⟨savingsHash, 0⟩] [pay 900000000]

def spentIndex : CBlockIndex :=
  toyChild (.root toyGenesis) [toyCoinbase 1 100000000, spendingTx]

def stakedIndex : CBlockIndex := toyChild (.root toyGenesis) [toyCoinbase 1 100000000, spendingTx,
  toyTx [⟨savingsHash, 1⟩] [⟨0, []⟩, pay 1000000000]]

/-- Its coinbase claims more than the subsidy. -/
def overpaidIndex : CBlockIndex := toyChild (.root toyGenesis) [toyCoinbase 1 1000000000000000]

/-- A branch of two blocks that ends in such a block. -/
def overpaidBranch : CBlockIndex :=
  toyChildIn 2 (toyChildIn 2 (.root toyGenesis) [toyCoinbase 1 90000000])
    [toyCoinbase 2 1000000000000000]

def attached (pindex : CBlockIndex) : ChainState :=
  match setBestChain savingsEnv savingsOps savingsState pindex with
  | .ok (true, next) => next
  | _ => savingsState

def savingsFlag (wallets : List CWallet) : Option Bool :=
  wallets.head?.bind fun w => (w.mapWallet.lookup savingsHash).map fun wtx => isSpent wtx 1

def savingsTxs : List CTransaction := [savingsTx, spendingTx, toyCoinbase 1 100000000,
  toyCoinbase 1 90000000, toyCoinbase 2 1000000000000000]

/-- `spentIndex` is disconnected and the first block of the other branch is connected, before the
second one fails. -/
theorem switch_undone_spentIndex : ∃ next,
    setBestChain savingsEnv savingsOps (attached spentIndex) overpaidBranch = .ok (false, next) ∧
      (attached spentIndex).pindexBest = spentIndex ∧
      SwitchUndone (attached spentIndex) next := by
  obtain ⟨next, call, -⟩ : ∃ next, setBestChain savingsEnv savingsOps (attached spentIndex)
      overpaidBranch = .ok (false, next) ∧ True := by decide +kernel
  have wallets : ∀ w ∈ (attached spentIndex).ledger.wallets, ∀ e ∈ w.mapWallet.entries,
      (getTxHash savingsEnv e.2.tx = e.1 ∧ e.2.tx ∈ savingsTxs) ∧
        ∀ x ∈ e.2.tx.vout.zipIdx, lastMark savingsEnv e.1 x.2 x.1 w.ownsScript
          (joined (fun move => decide (move ≠ .connect overpaidBranch)) (attached spentIndex)
            overpaidBranch savingsEnv) = none := by decide +kernel
  have apart : (savingsTxs.map (getTxHash savingsEnv)).Nodup := by decide +kernel
  have ordinary : ∀ tx ∈ gone (fun move => decide (move ≠ .connect overpaidBranch))
      (attached spentIndex) overpaidBranch, isCoinStake tx = false := by decide +kernel
  have best : (attached spentIndex).pindexBest = spentIndex := by decide +kernel
  refine ⟨next, call, best, (switch_undone_iff savingsEnv (· ∈ savingsTxs) (fun _ => 1432700000)
    (fun _ => true) (fun _ => true) (fun _ => true) (fun _ => true)
    (fun move => decide (move ≠ .connect overpaidBranch)) (attached spentIndex) next overpaidBranch
    (fun a b aIn bIn same => by rw [List.inj_on_of_nodup_map apart aIn bIn same])
    (fun w member hash wtx present => (wallets w member _ (AList.mem_lookup_iff.mp present)).1)
    (by decide +kernel) (by decide +kernel) call).mpr ?_⟩
  intro w member hash wtx present n txout outAt
  have unmarked := (wallets w member _ (AList.mem_lookup_iff.mp present)).2 (txout, n)
    (List.mem_zipIdx_iff_getElem?.mpr outAt)
  refine ⟨fun flag marked => ?_, fun _ released => ?_⟩
  · rw [unmarked] at marked
    cases marked
  · obtain ⟨_, tx, listed, stake, _⟩ := released
    rw [ordinary tx listed] at stake
    cases stake

theorem savingsFlag_of_same {before after : List CWallet} {flag : Bool}
    (same : List.Forall₂ SameFlags before after) (spent : savingsFlag before = some flag)
    (owned : ∀ w, before.head? = some w → ∀ wtx, w.mapWallet.lookup savingsHash = some wtx →
      1 < wtx.tx.vout.length) : savingsFlag after = some flag := by
  cases same with
  | nil => cases spent
  | @cons w w' rest rest' first _ =>
    obtain ⟨wtx, present, flagged⟩ := Option.map_eq_some_iff.mp spent
    obtain ⟨wtx', present', _, flags⟩ := first savingsHash wtx present
    have kept := flags 1 (owned w rfl wtx present)
    exact Option.map_eq_some_iff.mpr ⟨wtx', present', kept.trans flagged⟩

/-- The failed switch to `overpaidIndex` leaves the staked output marked as unspent. -/
theorem overpaidIndex_frees_stake : ∃ next,
    setBestChain savingsEnv savingsOps (attached stakedIndex) overpaidIndex = .ok (false, next) ∧
      savingsFlag (attached stakedIndex).ledger.wallets = some true ∧
      savingsFlag next.ledger.wallets = some false ∧ ¬SwitchUndone (attached stakedIndex) next := by
  have before : savingsFlag (attached stakedIndex).ledger.wallets = some true := by decide +kernel
  have owned : ((attached stakedIndex).ledger.wallets.head?.bind fun w =>
      (w.mapWallet.lookup savingsHash).map fun wtx => wtx.tx.vout.length) = some 2 := by
    decide +kernel
  obtain ⟨next, call, after⟩ : ∃ next, setBestChain savingsEnv savingsOps (attached stakedIndex)
      overpaidIndex = .ok (false, next) ∧ savingsFlag next.ledger.wallets = some false := by
    decide +kernel
  refine ⟨next, call, before, after, fun undone => ?_⟩
  have kept := savingsFlag_of_same undone.flags before (by
    intro w first wtx present
    rw [first, Option.bind_some, present, Option.map_some, Option.some.injEq] at owned
    omega)
  rw [after] at kept
  cases kept

end SynergyChain.FailedSwitch
