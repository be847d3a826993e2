import SynergyFormal.Chain.Switch

/-!
# The modelled block calls in a chain switch

`coreOps` keeps the laws the general statements ask for: it writes into the open batch
only, and a history of the transaction index follows it through the block tree.
-/

set_option autoImplicit false

namespace SynergyChain.Core

open SynergyData SynergyLedger
open SynergyLib.BatchStore Transaction Block TxDB Inputs ConnectBlock SpentIndex BestChain Switch

/-! ## Writes -/

variable {txdb next : CTxDB} {tx : CTransaction}

theorem queued_writeQueue {queue : Queue} : Queued txdb (writeQueue txdb queue) := by
  have each : ∀ (items : List (Sigma fun _ : Uint256 => CTxIndex)) (db : CTxDB),
      Queued db (items.foldl (fun db item => updateTxIndex db item.1 item.2) db) := by
    intro items
    induction items with
    | nil => intro db; exact .refl db
    | cons item items ih =>
      intro db
      exact (queued_write db _ _).trans (ih _)
  exact each queue.entries txdb

theorem queued_writePrevNext {ledger : Ledger} {pindex : CBlockIndex} {hashNext : Uint256} :
    Queued txdb (writePrevNext ledger txdb pindex hashNext) := by
  unfold writePrevNext
  split
  · exact .refl txdb
  · exact queued_write txdb _ _

theorem framed_connectBlock (env : Env) (adjustedTime : Int) (pool : PoolLookup)
    (ledger result : Ledger) (b : CBlock) (pindex : CBlockIndex)
    (success : connectBlock env adjustedTime pool ledger b pindex = some result) :
    Framed ledger result := by
  obtain ⟨_, pass, _, _, rfl⟩ := connectBlock_cases success
  refine ⟨rfl, rfl, ?_⟩
  have indexed := queued_write ledger.txdb
    (.blockIndex (diskBlockIndex (recordSupply ledger pindex pass) pindex).record.phashBlock)
    (.blockIndex (diskBlockIndex (recordSupply ledger pindex pass) pindex))
  exact (indexed.trans queued_writeQueue).trans queued_writePrevNext

theorem queued_foldlM {A : Type} {step : CTxDB → A → Option CTxDB}
    (each : ∀ txdb a next, step txdb a = some next → Queued txdb next) {list : List A} :
    ∀ {txdb last : CTxDB}, list.foldlM step txdb = some last → Queued txdb last := by
  induction list with
  | nil =>
    intro txdb last run
    cases run
    exact .refl txdb
  | cons a list ih =>
    intro txdb last run
    obtain ⟨next, first, rest⟩ := Option.bind_eq_some_iff.mp run
    exact (each txdb a next first).trans (ih rest)

theorem queued_disconnectInput {txin : CTxIn} (run : disconnectInput txdb txin = some next) :
    Queued txdb next := by
  unfold disconnectInput at run
  split at run
  · cases run
  · split_ifs at run
    cases run
    exact queued_write txdb _ _

theorem queued_disconnectInputs {env : Env} (run : disconnectInputs env txdb tx = some next) :
    Queued txdb next := by
  unfold disconnectInputs at run
  split_ifs at run
  · cases run
    exact queued_erase
  · obtain ⟨released, inputs, rfl⟩ := Option.map_eq_some_iff.mp run
    exact (queued_foldlM (fun db txin last => queued_disconnectInput) inputs).trans queued_erase

theorem framed_disconnectBlock (env : Env) (ledger result : Ledger) (b : CBlock)
    (pindex : CBlockIndex) (success : disconnectBlock env ledger b pindex = some result) :
    Framed ledger result := by
  obtain ⟨txdb, run, rfl⟩ := Option.map_eq_some_iff.mp success
  have released := queued_foldlM (fun db tx last => queued_disconnectInputs) run
  exact ⟨rfl, rfl, released.trans queued_writePrevNext⟩

theorem lawful_coreOps (env : Env) (adjustedTime : CBlockIndex → Int)
    (checkStakeModifier : CBlockIndex → Bool) :
    LawfulOps (coreOps env adjustedTime checkStakeModifier) :=
  ⟨fun pool ledger pindex next run =>
    framed_connectBlock env (adjustedTime pindex) pool ledger next (blockOf pindex) pindex run,
   fun ledger pindex next run =>
    framed_disconnectBlock env ledger next (blockOf pindex) pindex run⟩

/-! ## Histories -/

/-- What `AcceptBlock` has seen to for a block of the tree. -/
structure Arrived (Known : CTransaction → Prop) (pindex : CBlockIndex) : Prop where
  accepted : Accepted pindex
  known : ∀ tx ∈ (blockOf pindex).vtx, Known tx

theorem tracks_history (env : Env) {Known : CTransaction → Prop} (start : Ledger)
    (genesis : BlockRecord) (adjustedTime : CBlockIndex → Int)
    (checkStakeModifier : CBlockIndex → Bool) {Indexed : CBlockIndex → Prop}
    (arrived : ∀ tip record, Indexed (.grow tip record) → Arrived Known (.grow tip record)) :
    Tracks (coreOps env adjustedTime checkStakeModifier) Indexed
      (History env Known start genesis) where
  connect member past run :=
    .connect past (arrived _ _ member).accepted (arrived _ _ member).known run rfl
  disconnect past run := .disconnect past run rfl
  congr same past := past.settle same

theorem ok_of_map {E A B : Type} {result : Except E A} {f : A → B} {b : B}
    (returned : result.toOption.map f = some b) : ∃ a, result = .ok a ∧ f a = b := by
  cases result with
  | error stop => cases returned
  | ok a => exact ⟨a, rfl, Option.some.inj returned⟩

instance decidableReturns {E S : Type} (result : Except E (Bool × S)) (done : Bool) (P : S → Prop)
    [DecidablePred P] : Decidable (∃ next, result = .ok (done, next) ∧ P next) :=
  match result with
  | .error _ => isFalse (by simp)
  | .ok (answer, next) => decidable_of_iff (answer = done ∧ P next) (by simp)

end SynergyChain.Core
