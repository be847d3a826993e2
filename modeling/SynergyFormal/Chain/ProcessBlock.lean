import SynergyFormal.Lib.Parking
import SynergyFormal.Lib.Session
import SynergyFormal.Chain.SyncCheckpoint

/-!
# Orphan blocks and ProcessBlock

A block whose parent is not in the block index waits in `mapOrphanBlocks` and, under the
hash of its parent, in `mapOrphanBlocksByPrev`; `setStakeSeenOrphan` holds the stakes of the
waiting proof-of-stake blocks.  When a block is accepted, a work queue hands the orphans
that wait for it to `AcceptBlock`, and then the orphans of those that were accepted.

* `Draining` is what the queue keeps: every orphan whose parent is indexed has its parent
  in the rest of the queue.
* A block that `AcceptBlock` indexes and then refuses never gets into the queue, so the
  orphans that wait for it are left behind; and a stake that two orphans share is forgotten
  with the first of them.  `Allowed` excludes the two.

Requests to peers, misbehaviour scores and the checkpoint that a node with the master key
sends are left out.
-/

set_option autoImplicit false

namespace SynergyChain.ProcessBlock

open SynergyLib SynergyData SynergyLedger
open Parking Session SynergyLib.Tree Transaction Block Inputs ConnectBlock SynergyPool.MemPool
  BestChain Kernel StakeModifier Difficulty Switch BlockMap AcceptBlock SyncCheckpoint
  SynergyChain.Core
open List hiding insert map_set mem_range range set

/-- The kernel output and the time of a coinstake. -/
abbrev Stake := COutPoint × UInt32

def nullStake : Stake := (⟨0, 0xffffffff⟩, 0)

def getProofOfStake (b : CBlock) : Stake :=
  match b.vtx with
  | _ :: second :: _ =>
    match second.vin with
    | txin :: _ => if isCoinStake second then (txin.prevout, second.nTime) else nullStake
    | [] => nullStake
  | _ => nullStake

structure BlockNode where
  sync : SyncNode
  setStakeSeen : Finset Stake
  mapOrphanBlocks : AList fun _ : Uint256 => CBlock
  /-- A multimap, in the order of insertion. -/
  mapOrphanBlocksByPrev : List (Uint256 × CBlock)
  setStakeSeenOrphan : Finset Stake

/-- A call of `ProcessBlock`, with what the call reads besides the node: the clock, the
block files, the stake modifiers and the outcomes of the disk. -/
structure BlockCall where
  block : CBlock
  fIsBootstrap : Bool
  adjustedTime : Int
  mode : CPMode
  readHeader : UInt32 → UInt32 → Option CBlock
  stake : StakeTable
  ops : BlockOps
  writeToDisk : CBlock → UInt32 × UInt32

def known (s : BlockNode) (hash : Uint256) : Bool := (s.sync.chain.mapBlockIndex.lookup hash).isSome

/-- `mapOrphanBlocksByPrev.count(hash)`. -/
def awaited (s : BlockNode) (hash : Uint256) : Bool :=
  s.mapOrphanBlocksByPrev.any fun entry => entry.1 = hash

/-! ## Checks -/

/-- The walk down the orphans; `none` when it does not end. -/
def wantedByOrphan (orphans : AList fun _ : Uint256 => CBlock) : ℕ → CBlock → Option Uint256
  | 0, b => if (orphans.lookup b.hashPrevBlock).isSome then none else some b.hashPrevBlock
  | fuel + 1, b =>
    match orphans.lookup b.hashPrevBlock with
    | none => some b.hashPrevBlock
    | some parent => wantedByOrphan orphans fuel parent

def wantedByPendingSyncCheckpoint (s : BlockNode) (hashBlock : Uint256) : Option Bool :=
  if s.sync.hashPendingCheckpoint = 0 then some false
  else if hashBlock = s.sync.hashPendingCheckpoint then some true
  else
    match s.mapOrphanBlocks.lookup s.sync.hashPendingCheckpoint with
    | none => some false
    | some orphan =>
      (wantedByOrphan s.mapOrphanBlocks s.mapOrphanBlocks.keys.length orphan).map
        fun hash => decide (hashBlock = hash)

/-- A stake that was seen before is allowed only when there is an orphan child, or for the
pending checkpoint. -/
def duplicateStake (env : Env) (s : BlockNode) (seen : Finset Stake) (fIsBootstrap : Bool)
    (b : CBlock) : Option Bool :=
  if isProofOfStake b ∧ getProofOfStake b ∈ seen ∧ awaited s (getHash env b) = false then
    (wantedByPendingSyncCheckpoint s (getHash env b)).map fun wanted => !wanted && !fIsBootstrap
  else some false

/-- The check against "fill up memory by spamming with bogus blocks". -/
def tooLittleSinceCheckpoint (env : Env) (s : BlockNode) (b : CBlock) : Option Bool :=
  match s.sync.chain.mapBlockIndex.lookup s.sync.hashSyncCheckpoint with
  | none => some false
  | some pcheckpoint =>
    if b.hashPrevBlock = s.sync.chain.hashBestChain then some false
    else
      match wantedByPendingSyncCheckpoint s (getHash env b) with
      | none => none
      | some true => some false
      | some false => tooLittle env pcheckpoint b

/-! ## The work queue -/

section Calls
variable (env : Env) (call : BlockCall)

/-- `AcceptBlock` on the part of the node that it sees. -/
def acceptSync (sync : SyncNode) (b : CBlock) : Except Stop (Bool × SyncNode) :=
  acceptBlock env call.readHeader call.stake call.mode call.ops call.adjustedTime sync
    ⟨(call.writeToDisk b).1, (call.writeToDisk b).2, b⟩

/-- `AcceptBlock`; the stake of a block is seen from the moment the block is indexed. -/
def accept (s : BlockNode) (b : CBlock) : Except Stop (Bool × BlockNode) :=
  match acceptSync env call s.sync b with
  | .error stop => .error stop
  | .ok (done, sync) =>
    let entered := !known s (getHash env b) &&
      (sync.chain.mapBlockIndex.lookup (getHash env b)).isSome
    .ok (done, { s with
      sync
      setStakeSeen := if entered && isProofOfStake b then
          insert (getProofOfStake b) s.setStakeSeen
        else s.setStakeSeen })

/-- One orphan of the accepted block. -/
def visitOrphan (work : List Uint256 × BlockNode) (orphan : CBlock) :
    Except Stop (List Uint256 × BlockNode) :=
  match accept env call work.2 orphan with
  | .error stop => .error stop
  | .ok (done, s) =>
    .ok (if done then work.1 ++ [getHash env orphan] else work.1, { s with
      mapOrphanBlocks := s.mapOrphanBlocks.erase (getHash env orphan)
      setStakeSeenOrphan := s.setStakeSeenOrphan.erase (getProofOfStake orphan) })

def visitPrev (work : List Uint256 × BlockNode) (hashPrev : Uint256) :
    Except Stop (List Uint256 × BlockNode) :=
  match (range work.2.mapOrphanBlocksByPrev hashPrev).foldlM (visitOrphan env call) work with
  | .error stop => .error stop
  | .ok (vWorkQueue, s) =>
    .ok (vWorkQueue, { s with
      mapOrphanBlocksByPrev := s.mapOrphanBlocksByPrev.filter fun entry => entry.1 ≠ hashPrev })

/-- The loop over `vWorkQueue`, which grows while it runs; `none` when the fuel is gone. -/
def workLoop : ℕ → ℕ → List Uint256 × BlockNode → Except Stop (Option BlockNode)
  | 0, i, work => .ok (if i < work.1.length then none else some work.2)
  | fuel + 1, i, work =>
    match work.1[i]? with
    | none => .ok (some work.2)
    | some hashPrev =>
      match visitPrev env call work hashPrev with
      | .error stop => .error stop
      | .ok next => workLoop fuel (i + 1) next

def processQueue (s : BlockNode) : Except Stop (Bool × BlockNode) :=
  match workLoop env call (s.mapOrphanBlocksByPrev.length + 1) 0 ([getHash env call.block], s) with
  | .error stop => .error stop
  | .ok none => .error (.fault .nonterminating)
  | .ok (some t) => .ok (true, t)

def storeOrphan (s : BlockNode) (b : CBlock) : BlockNode :=
  { s with
    mapOrphanBlocks := s.mapOrphanBlocks.insert (getHash env b) b
    mapOrphanBlocksByPrev := s.mapOrphanBlocksByPrev ++ [(b.hashPrevBlock, b)]
    setStakeSeenOrphan := if isProofOfStake b then insert (getProofOfStake b) s.setStakeSeenOrphan
      else s.setStakeSeenOrphan }

def processBlock (s : BlockNode) : Except Stop (Bool × BlockNode) :=
  let b := call.block
  if known s (getHash env b) then .ok (false, s)
  else if (s.mapOrphanBlocks.lookup (getHash env b)).isSome then .ok (false, s)
  else
    match duplicateStake env s s.setStakeSeen call.fIsBootstrap b with
    | none => .error (.fault .nonterminating)
    | some true => .ok (false, s)
    | some false =>
      if !checkBlock env call.adjustedTime b true true true then .ok (false, s)
      else
        match tooLittleSinceCheckpoint env s b with
        | none => .error (.fault .nonterminating)
        | some true => .ok (false, s)
        | some false =>
          if !known s b.hashPrevBlock then
            match duplicateStake env s s.setStakeSeenOrphan false b with
            | none => .error (.fault .nonterminating)
            | some true => .ok (false, s)
            | some false => .ok (true, storeOrphan env s b)
          else
            match accept env call s b with
            | .error stop => .error stop
            | .ok (false, t) => .ok (false, t)
            | .ok (true, t) => processQueue env call t

end Calls

/-! ## What a call does -/

inductive ProcessResult (env : Env) (call : BlockCall) (s : BlockNode) : BlockNode → Prop where
  | refused : ProcessResult env call s s
  | stored (fresh : known s (getHash env call.block) = false)
      (absent : s.mapOrphanBlocks.lookup (getHash env call.block) = none)
      (parentless : known s call.block.hashPrevBlock = false) :
      ProcessResult env call s (storeOrphan env s call.block)
  | failed {t : BlockNode} (fresh : known s (getHash env call.block) = false)
      (absent : s.mapOrphanBlocks.lookup (getHash env call.block) = none)
      (run : accept env call s call.block = .ok (false, t)) : ProcessResult env call s t
  | drained {t u : BlockNode} (fresh : known s (getHash env call.block) = false)
      (absent : s.mapOrphanBlocks.lookup (getHash env call.block) = none)
      (run : accept env call s call.block = .ok (true, t))
      (queue : workLoop env call (t.mapOrphanBlocksByPrev.length + 1) 0
        ([getHash env call.block], t) = .ok (some u)) : ProcessResult env call s u

variable {call : BlockCall} {env : Env} {done : Bool} {t s : SyncNode} {ops : BlockOps} {b : CBlock}

theorem processResult {s t : BlockNode} (run : processBlock env call s = .ok (done, t)) :
    ProcessResult env call s t := by
  unfold processBlock at run
  dsimp only at run
  split at run
  · cases run
    exact .refused
  · rename_i duplicate
    have fresh : known s (getHash env call.block) = false := by simpa using duplicate
    split at run
    · cases run
      exact .refused
    · rename_i orphan
      have absent : s.mapOrphanBlocks.lookup (getHash env call.block) = none := by
        simpa using orphan
      split at run
      · cases run
      · cases run
        exact .refused
      · split at run
        · cases run
          exact .refused
        · split at run
          · cases run
          · cases run
            exact .refused
          · split at run
            · rename_i parentless
              split at run
              · cases run
              · cases run
                exact .refused
              · cases run
                exact .stored fresh absent (by simpa using parentless)
            · split at run
              · cases run
              · rename_i next accepted
                cases run
                exact .failed fresh absent accepted
              · rename_i next accepted
                unfold processQueue at run
                split at run
                · cases run
                · cases run
                · rename_i last queue
                  cases run
                  exact .drained fresh absent accepted queue

/-- What a call of `AcceptBlock` does to the block map. -/
structure Entered (env : Env) (s : SyncNode) (b : CBlock) (done : Bool) (t : SyncNode) : Prop where
  others : ∀ hash, hash ≠ getHash env b →
    t.chain.mapBlockIndex.lookup hash = s.chain.mapBlockIndex.lookup hash
  kept : (s.chain.mapBlockIndex.lookup (getHash env b)).isSome = true →
    (t.chain.mapBlockIndex.lookup (getHash env b)).isSome = true
  accepted : done = true → (t.chain.mapBlockIndex.lookup (getHash env b)).isSome = true

theorem map_validate {hashCheckpoint : Uint256}
    (run : validateSyncCheckpoint s hashCheckpoint = (done, t)) :
    t.chain.mapBlockIndex = s.chain.mapBlockIndex := by
  unfold validateSyncCheckpoint at run
  split at run
  · split_ifs at run <;> cases run <;> rfl
  · cases run
    rfl

theorem map_enforce {pindex : CBlockIndex}
    (run : enforceCheckpoint env ops s pindex = .ok (done, t)) :
    t.chain.mapBlockIndex = s.chain.mapBlockIndex := by
  unfold enforceCheckpoint at run
  split_ifs at run
  · cases run
    rfl
  · cases run
    rfl
  · split at run
    · cases run
    · rename_i chain set
      cases run
      exact map_set (setResult set)
    · rename_i chain set
      cases run
      exact map_set (setResult set)

theorem map_acceptPending (run : acceptPendingSyncCheckpoint env ops s = .ok (done, t)) :
    t.chain.mapBlockIndex = s.chain.mapBlockIndex := by
  unfold acceptPendingSyncCheckpoint at run
  split_ifs at run
  · cases run
    rfl
  · split at run
    · cases run
      rfl
    · split at run
      · rename_i next invalid
        cases run
        have same := map_validate invalid
        exact same
      · rename_i next holds
        split at run
        · cases run
        · rename_i enforced
          cases run
          exact (map_enforce enforced).trans (map_validate holds)
        · rename_i last enforced
          cases run
          exact (map_enforce enforced).trans (map_validate holds)

theorem map_processSyncCheckpoint {checkSignature : CSyncCheckpoint → Option CSyncCheckpoint}
    {message : CSyncCheckpoint}
    (run : processSyncCheckpoint env ops checkSignature s message = .ok (done, t)) :
    t.chain.mapBlockIndex = s.chain.mapBlockIndex := by
  unfold processSyncCheckpoint at run
  split at run
  · cases run
    rfl
  · split at run
    · cases run
      rfl
    · split at run
      · rename_i next invalid
        cases run
        exact map_validate invalid
      · rename_i next holds
        split at run
        · cases run
        · rename_i enforced
          cases run
          exact (map_enforce enforced).trans (map_validate holds)
        · rename_i last enforced
          cases run
          exact (map_enforce enforced).trans (map_validate holds)

theorem map_addBlock {new : NewBlock} (run : addBlock env ops s new = .ok (done, t)) :
    Entered env s new.block done t := by
  unfold addBlock at run
  split at run
  · cases run
  · rename_i result chain added
    cases run
    rcases map_add (addResult added) with ⟨refused, same⟩ | ⟨fresh, inserted⟩
    · refine ⟨fun hash _ => congrArg (AList.lookup hash) same, fun present => ?_, fun done => ?_⟩
      · change (chain.mapBlockIndex.lookup (getHash env new.block)).isSome = true
        rw [same, present]
      · rw [refused] at done
        cases done
    · have own := getBlockHash_newIndex env s.chain new
      rw [own] at inserted
      have present : (chain.mapBlockIndex.lookup (getHash env new.block)).isSome = true := by
        rw [inserted, AList.lookup_insert]
        rfl
      refine ⟨fun hash other => ?_, fun _ => present, fun _ => present⟩
      change chain.mapBlockIndex.lookup hash = _
      rw [inserted, AList.lookup_insert_ne other]

theorem map_acceptSync (run : acceptSync env call s b = .ok (done, t)) :
    Entered env s b done t := by
  cases acceptResult run with
  | refused => exact ⟨fun _ _ => rfl, id, by simp⟩
  | unplaced fresh found passes added => exact map_addBlock added
  | placed fresh found passes added pending =>
    have entered := map_addBlock added
    have same := map_acceptPending pending
    refine ⟨fun hash other => ?_, fun present => ?_, fun done => ?_⟩
    · rw [same, entered.others hash other]
    · rw [same]
      exact entered.kept present
    · rw [same]
      exact entered.accepted done

/-! ## The queue ends -/

variable {orphan : CBlock} {sync : SyncNode}

theorem visitOrphan_length {work next : List Uint256 × BlockNode}
    (run : visitOrphan env call work orphan = .ok next) : next.1.length ≤ work.1.length + 1 ∧
      next.2.mapOrphanBlocksByPrev = work.2.mapOrphanBlocksByPrev := by
  unfold visitOrphan accept at run
  split at run
  · cases run
  · rename_i done s accepted
    split at accepted
    · cases accepted
    · cases accepted
      cases run
      refine ⟨?_, rfl⟩
      split
      · rw [length_append, length_singleton]
      · exact Nat.le_succ _

theorem visitOrphans_length {orphans : List CBlock} : ∀ {work next : List Uint256 × BlockNode},
      orphans.foldlM (visitOrphan env call) work = .ok next →
      next.1.length ≤ work.1.length + orphans.length ∧
        next.2.mapOrphanBlocksByPrev = work.2.mapOrphanBlocksByPrev := by
  induction orphans with
  | nil =>
    intro work next run
    cases run
    exact ⟨le_rfl, rfl⟩
  | cons orphan rest ih =>
    intro work next run
    rw [foldlM_cons] at run
    cases first : visitOrphan env call work orphan with
    | error stop =>
      rw [first] at run
      cases run
    | ok middle =>
      rw [first] at run
      obtain ⟨longer, same⟩ := visitOrphan_length first
      obtain ⟨more, sameRest⟩ := ih run
      rw [length_cons]
      exact ⟨by omega, sameRest.trans same⟩

theorem length_range_add (byPrev : List (Uint256 × CBlock)) (hashPrev : Uint256) :
    (range byPrev hashPrev).length + (byPrev.filter fun entry => entry.1 ≠ hashPrev).length =
      byPrev.length := by
  have split := length_eq_length_filter_add (l := byPrev) (·.1 = hashPrev)
  simpa [range] using split.symm

/-- Every hash that joins the queue takes an orphan out of the multimap, so that the fuel of
`processQueue` lasts. -/
theorem workLoop_ne_none {fuel i : ℕ} {work : List Uint256 × BlockNode}
    (enough : work.1.length + work.2.mapOrphanBlocksByPrev.length ≤ fuel + i) :
    workLoop env call fuel i work ≠ .ok none := by
  induction fuel generalizing i work with
  | zero =>
    intro run
    rw [workLoop, if_neg (by omega)] at run
    cases run
  | succ fuel ih =>
    intro run
    rw [workLoop] at run
    split at run
    · cases run
    · rename_i hashPrev here
      split at run
      · cases run
      · rename_i next visited
        refine ih ?_ run
        unfold visitPrev at visited
        split at visited
        · cases visited
        · rename_i queue s folded
          cases visited
          obtain ⟨longer, same⟩ := visitOrphans_length folded
          have parts := length_range_add work.2.mapOrphanBlocksByPrev hashPrev
          dsimp only at longer same ⊢
          rw [same]
          omega

theorem processQueue_finishes {s : BlockNode} :
    workLoop env call (s.mapOrphanBlocksByPrev.length + 1) 0 ([getHash env call.block], s) ≠
      .ok none := by
  apply workLoop_ne_none
  change 1 + s.mapOrphanBlocksByPrev.length ≤ _
  omega

/-! ## Books in order -/

def stakeOf (b : CBlock) : Option Stake :=
  if isProofOfStake b then some (getProofOfStake b) else none

theorem stakeOf_eq_some {stake : Stake} :
    stakeOf b = some stake ↔ isProofOfStake b = true ∧ getProofOfStake b = stake := by
  unfold stakeOf
  split_ifs with kind <;> simp [kind]

theorem getProofOfStake_of_work (work : isProofOfStake b = false) :
    getProofOfStake b = nullStake := by
  unfold getProofOfStake
  split
  · rename_i first second rest shape
    rw [isProofOfStake, shape] at work
    split
    · rw [if_neg (by simpa using work)]
    · rfl
  · rfl

theorem getProofOfStake_ne_null (stake : isProofOfStake b = true) :
    getProofOfStake b ≠ nullStake := by
  unfold isProofOfStake at stake
  split at stake
  · rename_i first second rest shape
    have kernel := stake
    unfold isCoinStake at kernel
    split at kernel
    · rename_i txin _ _ _ _ inputs _
      intro null
      rw [getProofOfStake, shape] at null
      simp only [inputs, stake, if_true, nullStake, Prod.mk.injEq] at null
      rw [null.1] at kernel
      cases kernel
    · cases kernel
  · cases stake

/-- The property of the bookkeeping. -/
structure Booked (env : Env) (s : BlockNode) : Prop where
  /-- `mapOrphanBlocks` and `mapOrphanBlocksByPrev` hold the same blocks. -/
  filed : Filed (getHash env) CBlock.hashPrevBlock s.mapOrphanBlocks s.mapOrphanBlocksByPrev
  unindexed : ∀ hash, (s.mapOrphanBlocks.lookup hash).isSome = true → known s hash = false
  waiting : ∀ hash b, s.mapOrphanBlocks.lookup hash = some b → known s b.hashPrevBlock = false
  stakes : ∀ stake, stake ∈ s.setStakeSeenOrphan ↔
    ∃ hash b, s.mapOrphanBlocks.lookup hash = some b ∧ isProofOfStake b = true ∧
      getProofOfStake b = stake

/-- The blocks a call may hand to `AcceptBlock`. -/
def Handed (call : BlockCall) (s : BlockNode) (b : CBlock) : Prop :=
  b = call.block ∨ ∃ p, (p, b) ∈ s.mapOrphanBlocksByPrev

def acceptStep (env : Env) (call : BlockCall) (sync : SyncNode) (b : CBlock) : Option SyncNode :=
  (acceptSync env call sync b).toOption.map Prod.snd

/-- `AcceptBlock` enters the block into the index and then returns false. -/
def IndexedThenRefused (env : Env) (call : BlockCall) (sync : SyncNode) (b : CBlock) : Prop :=
  sync.chain.mapBlockIndex.lookup (getHash env b) = none ∧
    ∃ t, acceptSync env call sync b = .ok (false, t) ∧
      (t.chain.mapBlockIndex.lookup (getHash env b)).isSome = true

/-- No block that orphans wait for is indexed and refused, in whatever order `AcceptBlock`
gets the block of the call and the orphans. -/
def Untroubled (env : Env) (call : BlockCall) (s : BlockNode) : Prop :=
  ∀ sync b, Reached (acceptStep env call) (fun _ => Handed call s) s.sync sync →
    Handed call s b → awaited s (getHash env b) = true → ¬IndexedThenRefused env call sync b

/-- A proof-of-stake block that is stored as an orphan brings a stake of its own. -/
def FreshStake (call : BlockCall) (s : BlockNode) : Prop :=
  isProofOfStake call.block = true → known s call.block.hashPrevBlock = false →
    getProofOfStake call.block ∉ s.setStakeSeenOrphan

/-- What holds between two orphans of the queue: `pending` is the rest of the queue, and
`left` are the entries that have not been visited. -/
structure Draining (env : Env) (call : BlockCall) (start : BlockNode) (pending : List Uint256)
    (left : List (Uint256 × CBlock)) (s : BlockNode) : Prop where
  filed : Filed (getHash env) CBlock.hashPrevBlock s.mapOrphanBlocks left
  labelled : Labelled stakeOf s.setStakeSeenOrphan left
  apart : Apart (getHash env) stakeOf left
  older : ∀ entry ∈ left, entry ∈ start.mapOrphanBlocksByPrev
  unindexed : ∀ entry ∈ left, known s (getHash env entry.2) = false
  waiting : ∀ entry ∈ left, known s entry.1 = true → entry.1 ∈ pending
  reached : Reached (acceptStep env call) (fun _ => Handed call start) start.sync s.sync

section Queue
variable {start s : BlockNode} {pending : List Uint256} {left : List (Uint256 × CBlock)}

theorem accept_spec {t : BlockNode} (run : accept env call s b = .ok (done, t)) :
    acceptSync env call s.sync b = .ok (done, t.sync) ∧
      t.mapOrphanBlocks = s.mapOrphanBlocks ∧
      t.mapOrphanBlocksByPrev = s.mapOrphanBlocksByPrev ∧
      t.setStakeSeenOrphan = s.setStakeSeenOrphan := by
  unfold accept at run
  split at run
  · cases run
  · rename_i accepted
    cases run
    exact ⟨accepted, rfl, rfl, rfl⟩

section Untroubled
variable (untroubled : Untroubled env call start)
include untroubled

variable {queue : List Uint256} {next : List Uint256 × BlockNode}

theorem Draining.visit (state : Draining env call start pending left s) {p : Uint256}
    (member : (p, orphan) ∈ left) (run : visitOrphan env call (queue, s) orphan = .ok next) :
    ∃ added, next.1 = queue ++ added ∧
      Draining env call start (pending ++ added) (without (getHash env) left orphan) next.2 := by
  unfold visitOrphan at run
  split at run
  · cases run
  · rename_i done t accepted
    obtain ⟨synced, byKey, _, stakes⟩ := accept_spec accepted
    have entered := map_acceptSync synced
    have handed : Handed call start orphan := Or.inr ⟨p, state.older _ member⟩
    have reached : Reached (acceptStep env call) (fun _ => Handed call start) start.sync t.sync :=
      .call orphan state.reached handed (by rw [acceptStep, synced]; rfl)
    have others : ∀ hash, hash ≠ getHash env orphan → known t hash = known s hash := by
      intro hash other
      rw [known, known, entered.others hash other]
    have fresh : s.sync.chain.mapBlockIndex.lookup (getHash env orphan) = none := by
      simpa [known] using state.unindexed _ member
    cases run
    refine ⟨if done then [getHash env orphan] else [], ?_, ?_, ?_, state.apart.take,
      fun entry inside => state.older entry (mem_without.mp inside).1, fun entry inside => ?_,
      fun entry inside indexed => ?_, reached⟩
    · cases done <;> simp
    · change Filed _ _ (t.mapOrphanBlocks.erase _) _
      rw [byKey]
      exact state.filed.take
    · change Labelled _ (t.setStakeSeenOrphan.erase _) _
      rw [stakes]
      refine state.labelled.take state.filed member (fun stake own => ?_)
        (fun entry inside own => ?_)
      · exact (stakeOf_eq_some.mp own).2.symm
      · obtain ⟨staked, sameStake⟩ := stakeOf_eq_some.mp own
        cases kind : isProofOfStake orphan with
        | true => exact state.apart entry inside _ member _ own (stakeOf_eq_some.mpr ⟨kind, rfl⟩)
        | false =>
          rw [getProofOfStake_of_work kind] at sameStake
          exact absurd sameStake (getProofOfStake_ne_null staked)
    · obtain ⟨old, different⟩ := mem_without.mp inside
      exact (others _ different).trans (state.unindexed entry old)
    · obtain ⟨old, _⟩ := mem_without.mp inside
      by_cases here : entry.1 = getHash env orphan
      · cases done with
        | true => simp [here]
        | false =>
          -- The orphan was indexed without being accepted.
          have isAwaited : awaited start (getHash env orphan) = true := by
            rw [awaited, List.any_eq_true]
            exact ⟨entry, state.older entry old, by simp [here]⟩
          refine absurd ⟨fresh, t.sync, synced, ?_⟩
            (untroubled s.sync orphan state.reached handed isAwaited)
          rw [← here]
          exact indexed
      · have before : known s entry.1 = true := (others _ here).symm.trans indexed
        exact mem_append_left _ (state.waiting entry old before)

theorem Draining.visitAll (orphans : List CBlock) :
    ∀ {pending : List Uint256} {left : List (Uint256 × CBlock)} {s : BlockNode}
      {queue : List Uint256} {next : List Uint256 × BlockNode},
      Draining env call start pending left s → (∀ b ∈ orphans, ∃ p, (p, b) ∈ left) →
      (orphans.map (getHash env)).Nodup →
      orphans.foldlM (visitOrphan env call) (queue, s) = .ok next →
      ∃ added, next.1 = queue ++ added ∧ Draining env call start (pending ++ added)
        (left.filter fun entry => getHash env entry.2 ∉ orphans.map (getHash env)) next.2 := by
  induction orphans with
  | nil =>
    intro pending left s queue next state _ _ run
    cases run
    refine ⟨[], by simp, ?_⟩
    simpa using state
  | cons orphan rest ih =>
    intro pending left s queue next state members distinct run
    rw [map_cons, nodup_cons] at distinct
    rw [foldlM_cons] at run
    cases first : visitOrphan env call (queue, s) orphan with
    | error stop =>
      rw [first] at run
      cases run
    | ok middle =>
      rw [first] at run
      obtain ⟨queue', s'⟩ := middle
      obtain ⟨p, member⟩ := members orphan mem_cons_self
      obtain ⟨one, extended, visited⟩ := state.visit untroubled member first
      dsimp only at extended visited
      have others : ∀ b ∈ rest, ∃ q, (q, b) ∈ without (getHash env) left orphan := by
        intro b later
        obtain ⟨q, inside⟩ := members b (mem_cons_of_mem _ later)
        refine ⟨q, mem_without.mpr ⟨inside, fun same => distinct.1 ?_⟩⟩
        rw [← same]
        exact List.mem_map_of_mem later
      obtain ⟨more, final, drained⟩ := ih visited others distinct.2 run
      refine ⟨one ++ more, by rw [final, extended, append_assoc], ?_⟩
      rw [← append_assoc]
      convert drained using 1
      rw [without, List.filter_filter]
      apply filter_congr
      intro entry _
      simp [Bool.and_comm]

theorem Draining.visitPrev {hashPrev : Uint256} {rest : List Uint256}
    (state : Draining env call start (hashPrev :: rest) s.mapOrphanBlocksByPrev s)
    (run : ProcessBlock.visitPrev env call (queue, s) hashPrev = .ok next) :
    ∃ added, next.1 = queue ++ added ∧
      Draining env call start (rest ++ added) next.2.mapOrphanBlocksByPrev next.2 := by
  unfold ProcessBlock.visitPrev at run
  split at run
  · cases run
  · rename_i queue' t folded
    have once := state.filed.once
    have sublist : ((range s.mapOrphanBlocksByPrev hashPrev).map (getHash env)).Nodup := by
      rw [range, List.map_map]
      exact once.sublist (filter_sublist.map _)
    obtain ⟨added, extended, drained⟩ := state.visitAll untroubled _
      (fun b inside => ⟨hashPrev, mem_range.mp inside⟩) sublist folded
    have same := (visitOrphans_length folded).2
    have visited : (s.mapOrphanBlocksByPrev.filter fun entry =>
        getHash env entry.2 ∉ (range s.mapOrphanBlocksByPrev hashPrev).map (getHash env)) =
        s.mapOrphanBlocksByPrev.filter fun entry => entry.1 ≠ hashPrev := by
      apply filter_congr
      intro entry inside
      congr 2
      rw [eq_iff_iff, List.mem_map]
      constructor
      · rintro ⟨b, listed, sameHash⟩
        have entries := inj_on_of_nodup_map once (mem_range.mp listed) inside sameHash
        rw [← entries]
      · intro sameParent
        exact ⟨entry.2, mem_range.mpr (by rw [← sameParent]; exact inside), rfl⟩
    rw [visited] at drained
    cases run
    refine ⟨added, extended, ?_⟩
    dsimp only at same drained ⊢
    rw [same]
    refine ⟨drained.filed, drained.labelled, drained.apart, drained.older, drained.unindexed,
      fun entry inside indexed => ?_, drained.reached⟩
    have different : entry.1 ≠ hashPrev := of_decide_eq_true (mem_filter.mp inside).2
    have listed := drained.waiting entry inside indexed
    rw [cons_append, mem_cons] at listed
    exact listed.resolve_left different

theorem Draining.run (fuel : ℕ) : ∀ {i : ℕ} {queue : List Uint256} {s t : BlockNode},
      Draining env call start (queue.drop i) s.mapOrphanBlocksByPrev s →
      workLoop env call fuel i (queue, s) = .ok (some t) →
      Draining env call start [] t.mapOrphanBlocksByPrev t := by
  induction fuel with
  | zero =>
    intro i queue s t state run
    rw [workLoop] at run
    split_ifs at run with more
    · cases run
    · cases run
      rwa [drop_eq_nil_of_le (Nat.le_of_not_lt more)] at state
  | succ fuel ih =>
    intro i queue s t state run
    rw [workLoop] at run
    split at run
    · rename_i done
      cases run
      rwa [drop_eq_nil_of_le (List.getElem?_eq_none_iff.mp done)] at state
    · rename_i hashPrev here
      obtain ⟨inside, isHere⟩ := List.getElem?_eq_some_iff.mp here
      split at run
      · cases run
      · rename_i next visited
        rw [drop_eq_getElem_cons inside] at state
        change Draining env call start (queue[i] :: _) _ _ at state
        obtain ⟨added, extended, drained⟩ := state.visitPrev untroubled (isHere ▸ visited)
        obtain ⟨queue', s'⟩ := next
        dsimp only at extended drained
        refine ih ?_ run
        rw [extended, drop_append_of_le_length inside]
        exact drained

end Untroubled

end Queue

/-! ## Runs -/

/-- What a run of calls that meet the condition keeps. -/
structure Kept (env : Env) (s : BlockNode) : Prop where
  filed : Filed (getHash env) CBlock.hashPrevBlock s.mapOrphanBlocks s.mapOrphanBlocksByPrev
  labelled : Labelled stakeOf s.setStakeSeenOrphan s.mapOrphanBlocksByPrev
  apart : Apart (getHash env) stakeOf s.mapOrphanBlocksByPrev
  unindexed : ∀ entry ∈ s.mapOrphanBlocksByPrev, known s (getHash env entry.2) = false
  waiting : ∀ entry ∈ s.mapOrphanBlocksByPrev, known s entry.1 = false

section Steps
variable {s t : BlockNode}

theorem Kept.booked (kept : Kept env s) : Booked env s := by
  refine ⟨kept.filed, fun hash stored => ?_, fun hash b stored => ?_, fun stake => ?_⟩
  · obtain ⟨b, found⟩ := Option.isSome_iff_exists.mp stored
    obtain ⟨listed, rfl⟩ := (kept.filed.same hash b).mp found
    exact kept.unindexed _ listed
  · exact kept.waiting _ ((kept.filed.same hash b).mp stored).1
  · rw [kept.labelled stake]
    constructor
    · rintro ⟨⟨p, b⟩, listed, staked⟩
      obtain ⟨kind, own⟩ := stakeOf_eq_some.mp staked
      have isParent := kept.filed.keyed p b listed
      exact ⟨getHash env b, b, (kept.filed.same _ b).mpr ⟨isParent ▸ listed, rfl⟩, kind, own⟩
    · rintro ⟨hash, b, found, kind, own⟩
      exact ⟨_, ((kept.filed.same hash b).mp found).1, stakeOf_eq_some.mpr ⟨kind, own⟩⟩

theorem Draining.kept {start : BlockNode}
    (state : Draining env call start [] s.mapOrphanBlocksByPrev s) : Kept env s := by
  refine ⟨state.filed, state.labelled, state.apart, state.unindexed, fun entry listed => ?_⟩
  cases indexed : known s entry.1 with
  | false => rfl
  | true => cases state.waiting entry listed indexed

section Lookup
variable (kept : Kept env s) (fresh : known s (getHash env call.block) = false)
  (absent : s.mapOrphanBlocks.lookup (getHash env call.block) = none)
include kept fresh absent

theorem Kept.stored (parentless : known s call.block.hashPrevBlock = false)
    (freshStake : FreshStake call s) : Kept env (storeOrphan env s call.block) := by
  refine ⟨kept.filed.park absent, ?_, kept.apart.park fun stake own entry listed shared => ?_,
    fun entry listed => ?_, fun entry listed => ?_⟩
  · change Labelled _ (if isProofOfStake call.block then _ else _) _
    split_ifs with kind
    · exact kept.labelled.park (stakeOf_eq_some.mpr ⟨kind, rfl⟩)
    · exact kept.labelled.park_unlabelled (by rw [stakeOf, if_neg kind])
  · obtain ⟨kind, rfl⟩ := stakeOf_eq_some.mp own
    exact freshStake kind parentless ((kept.labelled _).mpr ⟨entry, listed, shared⟩)
  · rcases mem_append.mp listed with old | new
    · exact kept.unindexed entry old
    · rw [mem_singleton.mp new]
      exact fresh
  · rcases mem_append.mp listed with old | new
    · exact kept.waiting entry old
    · rw [mem_singleton.mp new]
      exact parentless

theorem Kept.accepted (untroubled : Untroubled env call s)
    (run : accept env call s call.block = .ok (done, t)) :
    Draining env call s (if done then [getHash env call.block] else []) t.mapOrphanBlocksByPrev
      t := by
  obtain ⟨synced, byKey, byPrev, stakes⟩ := accept_spec run
  have entered := map_acceptSync synced
  have others : ∀ hash, hash ≠ getHash env call.block → known t hash = known s hash := by
    intro hash other
    rw [known, known, entered.others hash other]
  rw [byPrev]
  refine ⟨byKey ▸ kept.filed, stakes ▸ kept.labelled, kept.apart, fun entry listed => listed,
    fun entry listed => ?_, fun entry listed indexed => ?_,
    .call call.block .refl (Or.inl rfl) (by rw [acceptStep, synced]; rfl)⟩
  · refine (others _ fun same => ?_).trans (kept.unindexed entry listed)
    have isParent := kept.filed.keyed entry.1 entry.2 listed
    have found := (kept.filed.same _ entry.2).mpr ⟨isParent ▸ listed, same⟩
    rw [absent] at found
    cases found
  · by_cases here : entry.1 = getHash env call.block
    · cases done with
      | true => simp [here]
      | false =>
        have isAwaited : awaited s (getHash env call.block) = true := by
          rw [awaited, List.any_eq_true]
          exact ⟨entry, listed, by simp [here]⟩
        refine absurd ⟨by simpa [known] using fresh, t.sync, synced, ?_⟩
          (untroubled s.sync call.block .refl (Or.inl rfl) isAwaited)
        rw [← here]
        exact indexed
    · rw [others _ here, kept.waiting entry listed] at indexed
      cases indexed

end Lookup

theorem Kept.processBlock (kept : Kept env s) (freshStake : FreshStake call s)
    (untroubled : Untroubled env call s) (result : ProcessResult env call s t) : Kept env t := by
  cases result with
  | refused => exact kept
  | stored fresh absent parentless => exact kept.stored fresh absent parentless freshStake
  | failed fresh absent run => exact (kept.accepted fresh absent untroubled run).kept
  | drained fresh absent run queue =>
    have begun : Draining env call s ([getHash env call.block].drop 0) _ _ :=
      kept.accepted fresh absent untroubled run
    exact (begun.run untroubled _ queue).kept

end Steps

inductive NodeCall where
  | block (call : BlockCall)
  | checkpoint (ops : BlockOps) (checkSignature : CSyncCheckpoint → Option CSyncCheckpoint)
      (message : CSyncCheckpoint)

def nodeStep (env : Env) (s : BlockNode) : NodeCall → Option BlockNode
  | .block call => (processBlock env call s).toOption.map Prod.snd
  | .checkpoint ops checkSignature message =>
    (processSyncCheckpoint env ops checkSignature s.sync message).toOption.map fun result =>
      { s with sync := result.2 }

def Allowed (env : Env) (s : BlockNode) : NodeCall → Prop
  | .block call => FreshStake call s ∧ Untroubled env call s
  | .checkpoint _ _ _ => True

/-- A node that has just been started. -/
def started (sync : SyncNode) (setStakeSeen : Finset Stake) : BlockNode :=
  ⟨sync, setStakeSeen, ∅, [], ∅⟩

theorem kept_started {setStakeSeen : Finset Stake} : Kept env (started sync setStakeSeen) := by
  refine ⟨⟨by simp [started], fun k b => ?_, by simp [started]⟩, fun stake => ?_, ?_, ?_, ?_⟩
  · simp [started]
  · simp [started]
  · simp [started, Apart]
  · simp [started]
  · simp [started]

theorem Kept.step {s t : BlockNode} (kept : Kept env s) (c : NodeCall) (allowed : Allowed env s c)
    (run : nodeStep env s c = some t) : Kept env t := by
  cases c with
  | block call =>
    obtain ⟨⟨done, next⟩, returned, rfl⟩ := ok_of_map run
    exact kept.processBlock allowed.1 allowed.2 (processResult returned)
  | checkpoint ops checkSignature message =>
    obtain ⟨⟨done, sync⟩, returned, rfl⟩ := ok_of_map run
    have same : ∀ hash, known { s with sync } hash = known s hash := by
      intro hash
      rw [known, known, map_processSyncCheckpoint returned]
    exact ⟨kept.filed, kept.labelled, kept.apart,
      fun entry listed => (same _).trans (kept.unindexed entry listed),
      fun entry listed => (same _).trans (kept.waiting entry listed)⟩

/-- As long as no orphan repeats a stake and no awaited block is indexed and refused, the
books are in order after every call. -/
theorem orphan_blocks_booked (env : Env) (sync : SyncNode) (setStakeSeen : Finset Stake)
    (s : BlockNode)
    (run : Reached (nodeStep env) (Allowed env) (started sync setStakeSeen) s) : Booked env s :=
  (run.invariant (Kept env) kept_started
    fun _ c _ kept allowed moved => kept.step c allowed moved).booked

/-! ## An orphan whose parent is accepted

The hash of a block is its nonce again. -/

def wrapNode : BlockNode := started wrapStart ∅

def receiveBlock (b : CBlock) : BlockCall where
  block := b
  fIsBootstrap := false
  adjustedTime := 1432800000
  mode := .strict
  readHeader _ _ := none
  stake _ := ⟨0, true, 0⟩
  ops := wrapOps
  writeToDisk b := (1, 1000 * b.nNonce)

def firstIndex : CBlockIndex :=
  wrapIndex (.root wrapGenesis) (getNextTargetRequired wrapEnv (.root wrapGenesis) false) 20

def secondBlock : CBlock :=
  (wrapNew firstIndex (getNextTargetRequired wrapEnv firstIndex false) 21).block

theorem acceptSync_parentless (missing : sync.chain.mapBlockIndex.lookup b.hashPrevBlock = none) :
    acceptSync env call sync b = .ok (false, sync) := by
  unfold acceptSync acceptBlock
  simp only [missing]
  split_ifs <;> rfl

theorem Entered.known (entered : Entered env s b done t) {hash : Uint256}
    (present : (s.chain.mapBlockIndex.lookup hash).isSome = true) :
    (t.chain.mapBlockIndex.lookup hash).isSome = true := by
  by_cases own : hash = getHash env b
  · rw [own] at present ⊢
    exact entered.kept present
  · rw [entered.others hash own, present]

theorem untroubled_of_accepted {s : BlockNode}
    (waiting : s.mapOrphanBlocksByPrev = [(getHash env call.block, orphan)])
    (child : orphan.hashPrevBlock = getHash env call.block)
    (different : getHash env orphan ≠ getHash env call.block)
    (missing : s.sync.chain.mapBlockIndex.lookup (getHash env call.block) = none)
    (accepted : (acceptSync env call s.sync call.block).toOption.map Prod.fst = some true) :
    Untroubled env call s := by
  obtain ⟨⟨done, after⟩, returned, rfl⟩ := ok_of_map accepted
  have either : ∀ b, Handed call s b → b = call.block ∨ b = orphan := by
    rintro b (rfl | ⟨p, listed⟩)
    · exact Or.inl rfl
    · rw [waiting, mem_singleton] at listed
      exact Or.inr (congrArg Prod.snd listed)
  intro sync b reached handed isAwaited
  have progress : sync = s.sync ∨
      (sync.chain.mapBlockIndex.lookup (getHash env call.block)).isSome = true := by
    refine reached.invariant (fun state => state = s.sync ∨
      (state.chain.mapBlockIndex.lookup (getHash env call.block)).isSome = true) (Or.inl rfl) ?_
    intro state other next before otherHanded moved
    obtain ⟨⟨answer, last⟩, stepped, rfl⟩ := ok_of_map moved
    rcases before with rfl | present
    · rcases either other otherHanded with rfl | rfl
      · rw [returned] at stepped
        cases stepped
        exact Or.inr ((map_acceptSync returned).accepted rfl)
      · rw [acceptSync_parentless (child ▸ missing)] at stepped
        cases stepped
        exact Or.inl rfl
    · exact Or.inr ((map_acceptSync stepped).known present)
  rintro ⟨fresh, t, refused, _⟩
  have own : b = call.block := by
    refine (either b handed).resolve_right ?_
    rintro rfl
    rw [awaited, waiting] at isAwaited
    simp [Ne.symm different] at isAwaited
  subst own
  rcases progress with rfl | present
  · rw [returned] at refused
    cases refused
  · rw [fresh] at present
    cases present

theorem orphan_blocks_booked_second : ∃ s,
    Reached (nodeStep wrapEnv) (Allowed wrapEnv) wrapNode s ∧
      known s (getHash wrapEnv secondBlock) = true ∧ Booked wrapEnv s := by
  obtain ⟨s, first, waiting, missing, accepted, t, second, indexed⟩ :
      ∃ s ∈ nodeStep wrapEnv wrapNode (.block (receiveBlock secondBlock)),
        s.mapOrphanBlocksByPrev = [(20, secondBlock)] ∧
        s.sync.chain.mapBlockIndex.lookup 20 = none ∧
        (acceptSync wrapEnv (receiveBlock firstNew.block) s.sync firstNew.block).toOption.map
          Prod.fst = some true ∧ ∃ t ∈ nodeStep wrapEnv s (.block (receiveBlock firstNew.block)),
            known t (getHash wrapEnv secondBlock) = true := by decide +kernel
  have work : isProofOfStake secondBlock = false ∧ isProofOfStake firstNew.block = false := by
    decide +kernel
  have started : Allowed wrapEnv wrapNode (.block (receiveBlock secondBlock)) := by
    refine ⟨fun kind => ?_, fun _ _ _ _ isAwaited => ?_⟩
    · cases work.1.symm.trans kind
    · cases isAwaited
  have followed : Allowed wrapEnv s (.block (receiveBlock firstNew.block)) := by
    refine ⟨fun kind => ?_, untroubled_of_accepted waiting ?_ ?_ ?_ accepted⟩
    · cases work.2.symm.trans kind
    · decide +kernel
    · decide +kernel
    · exact missing
  have run : Reached (nodeStep wrapEnv) (Allowed wrapEnv) wrapNode t :=
    (Reached.refl.call _ started first).call _ followed second
  exact ⟨t, run, indexed, orphan_blocks_booked wrapEnv wrapStart ∅ t run⟩

/-! ## Orphans that are left behind -/

/-- A block whose coinbase claims more than the subsidy. -/
def greedyBlock : CBlock :=
  let vtx := [{ toyCoinbase 1 1000000000000 with nTime := firstNew.block.nTime }]
  { firstNew.block with
    nNonce := 30
    vtx := vtx
    hashMerkleRoot := merkleRoot wrapEnv 1 (vtx.map (getTxHash wrapEnv)) }

def greedyChild : CBlock := { secondBlock with nNonce := 31, hashPrevBlock := 30 }

/-- A proof-of-stake block; the stake is the same for every parent and nonce. -/
def stakeChild (hashPrevBlock : Uint256) (nNonce : UInt32) : CBlock :=
  let coinbase := { toyCoinbase 2 0 with vout := [⟨0, []⟩], nTime := 1432700200 }
  let coinstake := { toyTx [⟨7, 0⟩] [⟨0, []⟩, pay 5] with nTime := 1432700200 }
  let vtx := [coinbase, coinstake]
  { secondBlock with
    hashPrevBlock := hashPrevBlock
    hashMerkleRoot := merkleRoot wrapEnv 2 (vtx.map (getTxHash wrapEnv))
    nTime := 1432700200
    nBits := 0x1d00ffff
    nNonce := nNonce
    vtx := vtx }

def greedyRun : List NodeCall :=
  [greedyChild, greedyBlock].map fun b => .block (receiveBlock b)

def stakeRun : List NodeCall :=
  [stakeChild 20 41, { secondBlock with nNonce := 43, hashPrevBlock := 42 }, stakeChild 77 42,
    firstNew.block].map fun b => .block (receiveBlock b)

/-- The child of an invalid block waits for a parent that is in the index.  A stake is
forgotten although a block with it still waits. -/
theorem orphans_left_behind :
    (∃ s, Reached (nodeStep wrapEnv) (fun _ _ => True) wrapNode s ∧ ¬Booked wrapEnv s ∧
      s.mapOrphanBlocks.lookup 31 = some greedyChild ∧
      known s greedyChild.hashPrevBlock = true) ∧
    ∃ s, Reached (nodeStep wrapEnv) (fun _ _ => True) wrapNode s ∧ ¬Booked wrapEnv s ∧
      s.mapOrphanBlocks.lookup 42 = some (stakeChild 77 42) ∧
      isProofOfStake (stakeChild 77 42) = true ∧
      getProofOfStake (stakeChild 77 42) ∉ s.setStakeSeenOrphan := by
  constructor
  · obtain ⟨s, run, stored, indexed⟩ : ∃ s ∈ greedyRun.foldlM (nodeStep wrapEnv) wrapNode,
        s.mapOrphanBlocks.lookup 31 = some greedyChild ∧
          known s greedyChild.hashPrevBlock = true := by decide +kernel
    refine ⟨s, .of_foldlM (fun _ _ _ moved => ⟨_, trivial, moved⟩) _ .refl run, fun booked => ?_,
      stored, indexed⟩
    rw [booked.waiting 31 greedyChild stored] at indexed
    cases indexed
  · obtain ⟨s, run, stored, forgotten⟩ : ∃ s ∈ stakeRun.foldlM (nodeStep wrapEnv) wrapNode,
        s.mapOrphanBlocks.lookup 42 = some (stakeChild 77 42) ∧
          getProofOfStake (stakeChild 77 42) ∉ s.setStakeSeenOrphan := by decide +kernel
    have kind : isProofOfStake (stakeChild 77 42) = true := by decide +kernel
    refine ⟨s, .of_foldlM (fun _ _ _ moved => ⟨_, trivial, moved⟩) _ .refl run, fun booked => ?_,
      stored, kind, forgotten⟩
    exact forgotten ((booked.stakes _).mpr ⟨42, stakeChild 77 42, stored, kind, rfl⟩)

end SynergyChain.ProcessBlock
