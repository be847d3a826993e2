import SynergyFormal.Lib.Loop
import SynergyFormal.Chain.AcceptBlock

/-!
# The sync checkpoint over whole runs

Blocks, checkpoint messages and pending checkpoints arrive in any order.  The invariant
is that the sync checkpoint is an indexed ancestor of the best block: `CheckSync` keeps
new blocks above it, and `ValidateSyncCheckpoint` lets it move up only.  A switch
reorganises to `pindexIntermediate`, which is chosen by trust alone, so it stays above
the checkpoint only where trust grows along a branch.  The sum `nChainTrust` has 256
bits and does not do so when it wraps.
-/

set_option autoImplicit false

namespace SynergyChain.SyncCheckpoint

open SynergyLib SynergyData SynergyLedger
open Wire Loop SynergyLib.Tree Transaction Block Inputs ConnectBlock SynergyPool.MemPool BestChain
  StakeModifier Switch SynergyChain.Core BlockMap Difficulty AcceptBlock
open Option hiding map

/-! ## The invariant -/

/-- The block map, the pointers to the best block and the forward links fit together. -/
structure ChainShape (env : Env) (genesis : BlockRecord) (chain : ChainState) : Prop where
  map : MapTree env genesis chain
  best : IndexedIn chain chain.pindexBest
  memory : chain.hashBestChain = getBlockHash chain.pindexBest
  forward : Along chain.ledger.pnext chain.pindexBest

/-- The trust of the block fits on top of the trust of its parent. -/
def TrustFits (p : CBlockIndex) (b : CBlock) : Prop :=
  nChainTrust p + getTrust b.nBits < 2 ^ 256

def Unwrapped (chain : ChainState) : Prop :=
  ∀ p record, IndexedIn chain (.grow p record) → TrustFits p record.block

structure Held (env : Env) (genesis : BlockRecord) (pindexSync : CBlockIndex) (chain : ChainState) :
    Prop extends ChainShape env genesis chain where
  unwrapped : Unwrapped chain
  ancestor : pindexSync ∈ path chain.pindexBest

/-- The call leaves the block of the sync checkpoint connected. -/
def Spares (call : SwitchCall) : Prop :=
  ∀ p ∈ call.disconnected, getBlockHash p ≠ call.hashSyncCheckpoint

variable {env : Env} {genesis : BlockRecord} {ops : BlockOps} {new : NewBlock} {done : Bool}
  {pindexNew pindexCheckpoint pindexSync : CBlockIndex} {chain next : ChainState} {s t : SyncNode}

theorem ChainShape.newBest (shape : ChainShape env genesis chain)
    (member : IndexedIn chain pindexNew) (memory : SameMemory chain next)
    (forward : Along next.ledger.pnext pindexNew) :
    ChainShape env genesis (BestChain.newBest env pindexNew next) where
  map := shape.map.of_map memory.mapBlockIndex
  best := (congrFun (indexedIn_of_map memory.mapBlockIndex) pindexNew).mpr member
  memory := shape.map.tree.hashed pindexNew member
  forward := forward

theorem ChainShape.sameMemory (shape : ChainShape env genesis chain)
    (memory : SameMemory chain next) (forward : next.ledger.pnext = chain.ledger.pnext) :
    ChainShape env genesis next where
  map := shape.map.of_map memory.mapBlockIndex
  best := by
    rw [indexedIn_of_map memory.mapBlockIndex, memory.pindexBest]
    exact shape.best
  memory := by rw [memory.hashBestChain, memory.pindexBest, shape.memory]
  forward := by
    rw [forward, memory.pindexBest]
    exact shape.forward

/-- A switch that succeeds makes its block the best one, whether or not its postponed
blocks were connected. -/
theorem ChainShape.set (lawful : LawfulOps ops) (shape : ChainShape env genesis chain)
    (member : IndexedIn chain pindexNew) (child : pindexNew ≠ .root genesis)
    (result : SetResult env ops chain pindexNew done next) :
    ChainShape env genesis next ∧ next.mapBlockIndex = chain.mapBlockIndex ∧
      next.pindexBest = if done then pindexNew else chain.pindexBest := by
  cases result with
  | @extended last onBest inner =>
    obtain ⟨memory, forward⟩ := inner.memory lawful
    obtain ⟨record, rfl⟩ := child_of_best shape.map.tree shape.memory shape.best member
      (fun root => absurd root child) onBest
    rw [if_pos rfl] at forward
    have along : Along last.ledger.pnext (.grow chain.pindexBest record) := by
      rw [forward]
      refine Along.relink _ (shape.forward.mono (mem_path_grow.mpr (Or.inl (self_mem_path _)))) ?_
      intro c single
      rw [List.mem_singleton.mp single]
      exact self_mem_path _
    exact ⟨shape.newBest member memory along, memory.mapBlockIndex, rfl⟩
  | notExtended onBest inner =>
    obtain ⟨memory, forward⟩ := inner.memory lawful
    exact ⟨shape.sameMemory memory forward, memory.mapBlockIndex, memory.pindexBest⟩
  | @switched middle last branch reorganised secondary =>
    obtain ⟨memory, _, moved⟩ := reorganised.memory lawful
    obtain ⟨pfork, forks, forward⟩ := moved rfl
    obtain ⟨fromBest, toNew⟩ := findFork_mem _ pfork forks
    have between : pindexIntermediate chain pindexNew ∈ path pindexNew := (postpone_spec _ _).1
    have along : Along middle.ledger.pnext pindexNew := by
      rw [forward]
      exact (shape.forward.switch fromBest toNew).mono between
    obtain ⟨later, final⟩ := secondary.memory lawful (by
      intro p listed
      rw [postponed_eq, vConnect, List.mem_reverse] at listed
      exact (mem_path_iff between).mpr (Or.inr listed)) along
    have same := memory.trans later
    exact ⟨shape.newBest member same final, same.mapBlockIndex, rfl⟩
  | @notSwitched failed branch reorganised =>
    obtain ⟨memory, forward, _⟩ := reorganised.memory lawful
    have dropped : SameMemory failed (aborted failed) := ⟨rfl, rfl, rfl, rfl, rfl⟩
    have same := memory.trans
      (dropped.trans (sameMemory_invalidChainFound (aborted failed) pindexNew))
    have kept := (pnext_invalidChainFound (aborted failed) pindexNew).trans (forward rfl)
    exact ⟨shape.sameMemory same kept, same.mapBlockIndex, same.pindexBest⟩

section Lookup
variable (shape : ChainShape env genesis chain)
  (parent : ParentKnown chain new) (fresh : Unindexed env chain new)
include shape parent fresh

theorem ChainShape.insertIndex :
    ChainShape env genesis (BestChain.insertIndex chain (newIndex env chain new)) := by
  refine ⟨shape.map.insert parent fresh rfl,
    (indexedIn_insert fresh rfl _).mpr (Or.inr shape.best), shape.memory, ?_⟩
  intro b c linked
  by_cases same : b = newIndex env chain new
  · simp [BestChain.insertIndex, same] at linked
  · have kept : (BestChain.insertIndex chain (newIndex env chain new)).ledger.pnext b =
        chain.ledger.pnext b := Function.update_of_ne same _ _
    exact shape.forward b c (kept.symm.trans linked)

theorem ChainShape.indexed :
    ChainShape env genesis (BlockMap.indexed chain (newIndex env chain new)) :=
  (shape.insertIndex parent fresh).sameMemory ⟨rfl, rfl, rfl, rfl, rfl⟩ rfl

end Lookup

theorem ChainShape.add (lawful : LawfulOps ops) (shape : ChainShape env genesis chain)
    (parent : ParentKnown chain new) (result : AddResult env ops chain new done next) :
    ChainShape env genesis next := by
  cases result with
  | refused => exact shape
  | unwritten fresh fails => exact shape.insertIndex parent fresh
  | kept fresh low => exact shape.indexed parent fresh
  | tried fresh high result =>
    exact ((shape.indexed parent fresh).set lawful (newIndex_indexed fresh)
      (newIndex_ne_root parent) result).1

section Held
variable (held : Held env genesis pindexSync chain)
include held

theorem Held.sync : IndexedIn chain pindexSync :=
  held.map.tree.onPath held.best _ held.ancestor

theorem Held.move (ancestor : pindexCheckpoint ∈ path chain.pindexBest) :
    Held env genesis pindexCheckpoint chain :=
  ⟨held.toChainShape, held.unwrapped, ancestor⟩

theorem Held.trust_le {p q : CBlockIndex} (member : IndexedIn chain p) (below : q ∈ path p) :
    nChainTrust q ≤ nChainTrust p := by
  induction p, below using path_induction with
  | base => exact le_rfl
  | step p record below ih =>
    have fits : nChainTrust p + getTrust record.block.nBits < 2 ^ 256 :=
      held.unwrapped p record member
    have lower := ih (held.map.tree.parents p record member).1
    rw [nChainTrust, Nat.mod_eq_of_lt fits]
    omega

/-- The block a switch reorganises to has more trust than the best block or is the new
tip, and so it is not below the checkpoint. -/
theorem Held.intermediate (descends : pindexSync ∈ path pindexNew) :
    pindexSync ∈ path (pindexIntermediate chain pindexNew) := by
  obtain ⟨inside, _, tip | high⟩ := postpone_spec (nChainTrust chain.pindexBest) pindexNew
  · rw [pindexIntermediate, tip]
    exact descends
  · rcases le_total (depth pindexSync) (depth (pindexIntermediate chain pindexNew)) with low | deep
    · exact path_total descends inside low
    · have under := held.trust_le held.sync (path_total inside descends deep)
      have lower := held.trust_le held.best held.ancestor
      exact absurd high (not_lt.mpr (under.trans lower))

theorem Held.spares (descends : pindexSync ∈ path pindexNew) :
    Spares ⟨getBlockHash pindexSync, chain, pindexNew⟩ := by
  intro p gone same
  unfold SwitchCall.disconnected at gone
  dsimp only at gone
  split_ifs at gone
  · cases gone
  · split at gone
    · cases gone
    · rename_i pfork forks
      obtain ⟨fromBest, _⟩ := findFork_mem _ pfork forks
      have kept := findFork_above _ pfork forks held.ancestor (held.intermediate descends)
      have onBest : p ∈ path chain.pindexBest := (mem_path_iff fromBest).mpr (Or.inr gone)
      have equal := held.map.tree.distinct p pindexSync
        (held.map.tree.onPath held.best p onBest) held.sync same
      rw [equal] at gone
      exact not_mem_above kept fromBest gone

theorem Held.set (lawful : LawfulOps ops) (member : IndexedIn chain pindexNew)
    (descends : pindexSync ∈ path pindexNew) (child : pindexNew ≠ .root genesis)
    (result : SetResult env ops chain pindexNew done next) :
    Held env genesis pindexSync next ∧ (done = true → next.pindexBest = pindexNew) := by
  obtain ⟨shape, map, best⟩ := held.toChainShape.set lawful member child result
  refine ⟨⟨shape, ?_, ?_⟩, ?_⟩
  · intro p record indexed
    exact held.unwrapped p record ((congrFun (indexedIn_of_map map) _).mp indexed)
  · rw [best]
    split_ifs
    · exact descends
    · exact held.ancestor
  · intro success
    rw [best, if_pos success]

section Adding
variable {pindexPrev : CBlockIndex}
variable (found : chain.mapBlockIndex.lookup new.block.hashPrevBlock = some pindexPrev)
include found

omit held in
theorem newIndex_descends (descends : pindexSync ∈ path pindexPrev) :
    pindexSync ∈ path (newIndex env chain new) := by
  rw [newIndex, found]
  exact mem_path_grow.mpr (Or.inl descends)

theorem Held.inserted (fresh : Unindexed env chain new) (fits : TrustFits pindexPrev new.block)
    (shape : ChainShape env genesis next) (best : next.pindexBest = chain.pindexBest)
    (map : next.mapBlockIndex =
      chain.mapBlockIndex.insert (getBlockHash (newIndex env chain new)) (newIndex env chain new)) :
    Held env genesis pindexSync next := by
  refine ⟨shape, ?_, best ▸ held.ancestor⟩
  intro p record member
  rcases (indexedIn_insert fresh map _).mp member with equal | old
  · rw [newIndex, found] at equal
    cases equal
    exact fits
  · exact held.unwrapped p record old

theorem Held.indexed (fresh : Unindexed env chain new) (fits : TrustFits pindexPrev new.block) :
    Held env genesis pindexSync (BlockMap.indexed chain (newIndex env chain new)) :=
  held.inserted found fresh fits (held.toChainShape.indexed (Option.isSome_of_eq_some found) fresh)
    rfl rfl

theorem Held.add (lawful : LawfulOps ops) (fits : TrustFits pindexPrev new.block)
    (descends : pindexSync ∈ path pindexPrev) (result : AddResult env ops chain new done next) :
    Held env genesis pindexSync next := by
  have parent : ParentKnown chain new := Option.isSome_of_eq_some found
  cases result with
  | refused => exact held
  | unwritten fresh fails =>
    exact held.inserted found fresh fits (held.toChainShape.insertIndex parent fresh) rfl rfl
  | kept fresh low => exact held.indexed found fresh fits
  | tried fresh high result =>
    exact ((held.indexed found fresh fits).set lawful (newIndex_indexed fresh)
      (newIndex_descends found descends) (newIndex_ne_root parent) result).1

end Adding

end Held

/-! ## The calls -/

structure Guarded (env : Env) (genesis : BlockRecord) (pindexSync : CBlockIndex) (s : SyncNode) :
    Prop where
  held : Held env genesis pindexSync s.chain
  hash : s.hashSyncCheckpoint = getBlockHash pindexSync

/-- The switches made between two states leave the checkpoint of their time connected. -/
def SparesSince (s t : SyncNode) : Prop :=
  ∃ made, t.switches = made ++ s.switches ∧ ∀ call ∈ made, Spares call

theorem SparesSince.of_eq (same : t.switches = s.switches) : SparesSince s t :=
  ⟨[], same, by simp⟩

theorem SparesSince.trans {u : SyncNode} (first : SparesSince s t) (second : SparesSince t u) :
    SparesSince s u := by
  obtain ⟨early, shape, spared⟩ := first
  obtain ⟨late, shape', spared'⟩ := second
  refine ⟨late ++ early, by rw [shape', shape, List.append_assoc], ?_⟩
  intro call member
  rcases List.mem_append.mp member with inLate | inEarly
  · exact spared' call inLate
  · exact spared call inEarly

/-- A call after which the checkpoint is a descendant of what it was. -/
def Climbs (env : Env) (genesis : BlockRecord) (pindexSync : CBlockIndex) (s t : SyncNode) : Prop :=
  ∃ pindexNext, Guarded env genesis pindexNext t ∧ pindexSync ∈ path pindexNext ∧ SparesSince s t

section Guarded
variable {u : SyncNode} (guarded : Guarded env genesis pindexSync s)
include guarded

theorem Guarded.found : s.chain.mapBlockIndex.lookup s.hashSyncCheckpoint = some pindexSync := by
  rw [guarded.hash]
  exact guarded.held.sync

omit guarded in
theorem Guarded.climbs (guarded : Guarded env genesis pindexSync t) (spared : SparesSince s t) :
    Climbs env genesis pindexSync s t :=
  ⟨pindexSync, guarded, self_mem_path _, spared⟩

theorem Guarded.checkSync (mainnet : env.fTestNet = false) {hashBlock : Uint256}
    {pindexPrev : CBlockIndex} (fresh : s.chain.mapBlockIndex.lookup hashBlock = none)
    (member : IndexedIn s.chain pindexPrev)
    (passes : AcceptBlock.checkSync env s hashBlock pindexPrev = some true) :
    pindexSync ∈ path pindexPrev := by
  rw [AcceptBlock.checkSync, mainnet, if_neg (by simp), guarded.found, map_some,
    some.injEq] at passes
  split_ifs at passes with higher level
  · obtain ⟨_, hash⟩ := Bool.and_eq_true_iff.mp passes
    have inside := liftTo_mem_path (nHeight pindexSync) pindexPrev
    have same := guarded.held.map.tree.distinct _ pindexSync
      (guarded.held.map.tree.onPath member _ inside) guarded.held.sync
      ((of_decide_eq_true hash).trans guarded.hash)
    rw [← same]
    exact inside
  · rw [of_decide_eq_true passes, guarded.found] at fresh
    cases fresh
  · rw [fresh] at passes
    cases passes

/-- A valid checkpoint is a strict descendant of the present one; nothing but the record
of an invalid one is written. -/
theorem Guarded.validate {hashCheckpoint : Uint256}
    (found : s.chain.mapBlockIndex.lookup hashCheckpoint = some pindexCheckpoint)
    (run : validateSyncCheckpoint s hashCheckpoint = (done, t)) :
    Guarded env genesis pindexSync t ∧ t.chain = s.chain ∧ t.switches = s.switches ∧
      (done = true →
        pindexSync ∈ path pindexCheckpoint ∧ depth pindexSync < depth pindexCheckpoint) := by
  simp only [validateSyncCheckpoint, guarded.found, found] at run
  split_ifs at run with lower known joins
  · cases run
    exact ⟨guarded, rfl, rfl, by simp⟩
  · cases run
    exact ⟨⟨guarded.held, guarded.hash⟩, rfl, rfl, by simp⟩
  · cases run
    refine ⟨guarded, rfl, rfl, fun _ => ⟨?_, not_le.mp lower⟩⟩
    have inside := liftTo_mem_path (nHeight pindexSync) pindexCheckpoint
    have same := guarded.held.map.tree.distinct _ pindexSync
      (guarded.held.map.tree.onPath (guarded.held.map.found found).1 _ inside) guarded.held.sync
      (joins.trans guarded.hash)
    rw [← same]
    exact inside
  · cases run
    exact ⟨⟨guarded.held, guarded.hash⟩, rfl, rfl, by simp⟩

theorem Guarded.inMainChain {pindex : CBlockIndex} (main : isInMainChain s.chain pindex = true) :
    pindex ∈ path s.chain.pindexBest := by
  rcases Bool.or_eq_true_iff.mp main with linked | tip
  · obtain ⟨c, link⟩ := isSome_iff_exists.mp linked
    exact guarded.held.forward.source link
  · rw [of_decide_eq_true tip]
    exact self_mem_path _

variable (lawful : LawfulOps ops)
include lawful

theorem Guarded.enforce (member : IndexedIn s.chain pindexCheckpoint)
    (descends : pindexSync ∈ path pindexCheckpoint)
    (higher : depth pindexSync < depth pindexCheckpoint)
    (run : enforceCheckpoint env ops s pindexCheckpoint = .ok (done, t)) :
    Guarded env genesis pindexSync t ∧ SparesSince s t ∧
      (done = true → Held env genesis pindexCheckpoint t.chain) := by
  have child : pindexCheckpoint ≠ .root genesis := by
    rintro rfl
    simp at higher
  have spared : ∀ after : SyncNode, after.switches = called s s.chain pindexCheckpoint →
      SparesSince s after := by
    intro after shape
    refine ⟨[_], shape, ?_⟩
    intro call single
    rw [List.mem_singleton.mp single, guarded.hash]
    exact guarded.held.spares descends
  unfold enforceCheckpoint at run
  split_ifs at run with main readable
  · cases run
    exact ⟨guarded, .of_eq rfl, fun _ => guarded.held.move (guarded.inMainChain main)⟩
  · cases run
    exact ⟨guarded, .of_eq rfl, by simp⟩
  · split at run
    · cases run
    · rename_i chain switched
      cases run
      obtain ⟨held, reached⟩ := guarded.held.set lawful member descends child (setResult switched)
      refine ⟨⟨held, guarded.hash⟩, spared _ rfl, fun _ => held.move ?_⟩
      rw [reached rfl]
      exact self_mem_path _
    · rename_i chain failed
      cases run
      obtain ⟨held, _⟩ := guarded.held.set lawful member descends child (setResult failed)
      exact ⟨⟨held, guarded.hash⟩, spared _ rfl, by simp⟩

theorem Guarded.advance {hashCheckpoint : Uint256}
    (found : s.chain.mapBlockIndex.lookup hashCheckpoint = some pindexCheckpoint)
    (valid : validateSyncCheckpoint s hashCheckpoint = (true, t))
    (run : enforceCheckpoint env ops t pindexCheckpoint = .ok (done, u)) :
    (done = false → Climbs env genesis pindexSync s u) ∧
      (done = true → ∀ last : SyncNode, last.chain = u.chain → last.switches = u.switches →
        last.hashSyncCheckpoint = hashCheckpoint → Climbs env genesis pindexSync s last) := by
  obtain ⟨after, chain, switches, strict⟩ := guarded.validate found valid
  obtain ⟨descends, higher⟩ := strict rfl
  obtain ⟨member, hash⟩ := guarded.held.map.found found
  rw [← chain] at member
  obtain ⟨last, spared, reached⟩ := after.enforce lawful member descends higher run
  have since := (SparesSince.of_eq switches).trans spared
  refine ⟨fun _ => last.climbs since, fun success final sameChain sameSwitches moved => ?_⟩
  have held := reached success
  rw [← sameChain] at held
  exact ⟨pindexCheckpoint, ⟨held, moved.trans hash.symm⟩, descends,
    since.trans (.of_eq sameSwitches)⟩

theorem Guarded.acceptPending (run : acceptPendingSyncCheckpoint env ops s = .ok (done, t)) :
    Climbs env genesis pindexSync s t := by
  unfold acceptPendingSyncCheckpoint at run
  split_ifs at run
  · cases run
    exact guarded.climbs (.of_eq rfl)
  · split at run
    · cases run
      exact guarded.climbs (.of_eq rfl)
    · rename_i pindexCheckpoint found
      split at run
      · rename_i after invalid
        cases run
        obtain ⟨same, _, switches, _⟩ := guarded.validate found invalid
        exact Guarded.climbs ⟨same.held, same.hash⟩ (.of_eq switches)
      · rename_i after valid
        split at run
        · cases run
        · rename_i last enforced
          cases run
          exact (guarded.advance lawful found valid enforced).1 rfl
        · rename_i last enforced
          cases run
          exact (guarded.advance lawful found valid enforced).2 rfl _ rfl rfl rfl

theorem Guarded.process {checkSignature : CSyncCheckpoint → Option CSyncCheckpoint}
    {message : CSyncCheckpoint}
    (run : processSyncCheckpoint env ops checkSignature s message = .ok (done, t)) :
    Climbs env genesis pindexSync s t := by
  unfold processSyncCheckpoint at run
  split at run
  · cases run
    exact guarded.climbs (.of_eq rfl)
  · split at run
    · cases run
      exact Guarded.climbs ⟨guarded.held, guarded.hash⟩ (.of_eq rfl)
    · rename_i pindexCheckpoint found
      split at run
      · rename_i after invalid
        cases run
        obtain ⟨same, _, switches, _⟩ := guarded.validate found invalid
        exact same.climbs (.of_eq switches)
      · rename_i after valid
        split at run
        · cases run
        · rename_i last enforced
          cases run
          exact (guarded.advance lawful found valid enforced).1 rfl
        · rename_i last enforced
          cases run
          exact (guarded.advance lawful found valid enforced).2 rfl _ rfl rfl rfl

theorem Guarded.addBlock {pindexPrev : CBlockIndex}
    (found : s.chain.mapBlockIndex.lookup new.block.hashPrevBlock = some pindexPrev)
    (fresh : Unindexed env s.chain new) (fits : TrustFits pindexPrev new.block)
    (descends : pindexSync ∈ path pindexPrev)
    (run : AcceptBlock.addBlock env ops s new = .ok (done, t)) :
    Guarded env genesis pindexSync t ∧ SparesSince s t := by
  unfold AcceptBlock.addBlock at run
  split at run
  · cases run
  · rename_i result chain added
    cases run
    refine ⟨⟨guarded.held.add found lawful fits descends (addResult added), guarded.hash⟩, ?_⟩
    by_cases tries : triesToSwitch env ops s.chain new = true
    · refine ⟨[_], by rw [if_pos tries]; rfl, ?_⟩
      intro call single
      rw [List.mem_singleton.mp single, guarded.hash]
      exact (guarded.held.indexed found fresh fits).spares (newIndex_descends found descends)
    · exact .of_eq (by rw [if_neg tries])

theorem Guarded.acceptBlock (mainnet : env.fTestNet = false)
    {readHeader : UInt32 → UInt32 → Option CBlock} {stake : StakeTable} {adjustedTime : Int}
    (fits : ∀ pindexPrev, s.chain.mapBlockIndex.lookup new.block.hashPrevBlock = some pindexPrev →
      TrustFits pindexPrev new.block)
    (run : AcceptBlock.acceptBlock env readHeader stake .strict ops adjustedTime s new =
      .ok (done, t)) : Climbs env genesis pindexSync s t := by
  cases acceptResult run with
  | refused => exact guarded.climbs (.of_eq rfl)
  | unplaced fresh found passes added =>
    have descends :=
      guarded.checkSync mainnet fresh (guarded.held.map.found found).1 (passes rfl)
    obtain ⟨after, spared⟩ := guarded.addBlock lawful found fresh (fits _ found) descends added
    exact after.climbs spared
  | placed fresh found passes added pending =>
    have descends :=
      guarded.checkSync mainnet fresh (guarded.held.map.found found).1 (passes rfl)
    obtain ⟨after, spared⟩ := guarded.addBlock lawful found fresh (fits _ found) descends added
    obtain ⟨pindexNext, final, higher, later⟩ := after.acceptPending lawful pending
    exact ⟨pindexNext, final, higher, spared.trans later⟩

end Guarded

/-! ## Runs -/

/-- The sync checkpoint is an indexed ancestor of the best block. -/
def Anchored (s : SyncNode) : Prop :=
  ∃ pindexSync, s.chain.mapBlockIndex.lookup s.hashSyncCheckpoint = some pindexSync ∧
    pindexSync ∈ path s.chain.pindexBest

/-- The checkpoint of the second state is a strict descendant of that of the first. -/
def MovedUp (s t : SyncNode) : Prop :=
  ∃ old new, s.chain.mapBlockIndex.lookup s.hashSyncCheckpoint = some old ∧
    t.chain.mapBlockIndex.lookup t.hashSyncCheckpoint = some new ∧ old ∈ path new ∧ old ≠ new

/-- One call in strict mode on a disk that does not fail.  `Meets` is a condition on the
blocks that arrive. -/
inductive Step (env : Env) (Meets : SyncNode → NewBlock → Prop) : SyncNode → SyncNode → Prop where
  | acceptBlock {s t : SyncNode} {new : NewBlock} {done : Bool}
      (readHeader : UInt32 → UInt32 → Option CBlock) (stake : StakeTable)
      (clock : CBlockIndex → Int) (checkStakeModifier : CBlockIndex → Bool) (adjustedTime : Int)
      (meets : Meets s new)
      (run : AcceptBlock.acceptBlock env readHeader stake .strict
        (coreOps env clock checkStakeModifier) adjustedTime s new = .ok (done, t)) :
      Step env Meets s t
  | processSyncCheckpoint {s t : SyncNode} {done : Bool}
      (checkSignature : CSyncCheckpoint → Option CSyncCheckpoint) (message : CSyncCheckpoint)
      (clock : CBlockIndex → Int) (checkStakeModifier : CBlockIndex → Bool)
      (run : AcceptBlock.processSyncCheckpoint env (coreOps env clock checkStakeModifier)
        checkSignature s message = .ok (done, t)) :
      Step env Meets s t
  | acceptPendingSyncCheckpoint {s t : SyncNode} {done : Bool}
      (clock : CBlockIndex → Int) (checkStakeModifier : CBlockIndex → Bool)
      (run : AcceptBlock.acceptPendingSyncCheckpoint env (coreOps env clock checkStakeModifier) s =
        .ok (done, t)) :
      Step env Meets s t

/-- The trust of a block that arrives fits on top of its parent's. -/
def FitsParent (s : SyncNode) (new : NewBlock) : Prop :=
  ∀ pindexPrev, s.chain.mapBlockIndex.lookup new.block.hashPrevBlock = some pindexPrev →
    TrustFits pindexPrev new.block

theorem Guarded.step (guarded : Guarded env genesis pindexSync s) (mainnet : env.fTestNet = false)
    (step : Step env FitsParent s t) : Climbs env genesis pindexSync s t := by
  cases step with
  | acceptBlock readHeader stake clock checkStakeModifier adjustedTime meets run =>
    exact guarded.acceptBlock (lawful_coreOps env clock checkStakeModifier) mainnet meets run
  | processSyncCheckpoint checkSignature message clock checkStakeModifier run =>
    exact guarded.process (lawful_coreOps env clock checkStakeModifier) run
  | acceptPendingSyncCheckpoint clock checkStakeModifier run =>
    exact guarded.acceptPending (lawful_coreOps env clock checkStakeModifier) run

theorem Guarded.run (guarded : Guarded env genesis pindexSync s) (mainnet : env.fTestNet = false)
    (run : Relation.ReflTransGen (Step env FitsParent) s t) :
    Climbs env genesis pindexSync s t := by
  induction run with
  | refl => exact guarded.climbs (.of_eq rfl)
  | tail _ step ih =>
    obtain ⟨middle, held, higher, spared⟩ := ih
    obtain ⟨last, held', higher', spared'⟩ := held.step mainnet step
    exact ⟨last, held', path_trans higher higher', spared.trans spared'⟩

theorem Guarded.anchored (guarded : Guarded env genesis pindexSync s) : Anchored s :=
  ⟨pindexSync, guarded.found, guarded.held.ancestor⟩

/-- As long as no chain trust wraps, the sync checkpoint stays an ancestor of the best
block, moves up only, and is never disconnected. -/
theorem sync_checkpoint_safe (env : Env) (genesis : BlockRecord) (s t : SyncNode)
    (mainnet : env.fTestNet = false) (shape : ChainShape env genesis s.chain)
    (anchored : Anchored s) (unwrapped : Unwrapped s.chain)
    (run : Relation.ReflTransGen (Step env FitsParent) s t) :
    Anchored t ∧ SparesSince s t ∧
      ∀ u, Step env FitsParent t u → u.hashSyncCheckpoint = t.hashSyncCheckpoint ∨ MovedUp t u := by
  obtain ⟨pindexSync, found, ancestor⟩ := anchored
  have guarded : Guarded env genesis pindexSync s :=
    ⟨⟨shape, unwrapped, ancestor⟩, (shape.map.found found).2.symm⟩
  obtain ⟨middle, held, _, spared⟩ := guarded.run mainnet run
  refine ⟨held.anchored, spared, ?_⟩
  intro u step
  obtain ⟨last, held', higher, _⟩ := held.step mainnet step
  by_cases same : middle = last
  · left
    rw [held'.hash, held.hash, same]
  · exact Or.inr ⟨middle, last, held.found, held'.found, higher, same⟩

/-! ## A trust that wraps

The hash of a block is its nonce, so that any target can be met.  A block with target 1
has half of the trust there is; with targets 2 and 4 above it the sum wraps. -/

def nonceHash (bytes : Bytes) : Uint256 :=
  if bytes.length = 80 then BitVec.ofNat 256 (readBytes (bytes.drop 76)) else toyHash bytes

def wrapEnv : Env :=
  { toyEnv [] with
    hash := nonceHash
    hash9 := nonceHash
    fTestNet := false }

def wrapGenesis : BlockRecord :=
  let b := { toyBlock 0 [] with nBits := 0x1f00ffff, nNonce := 9 }
  ⟨getHash wrapEnv b, 1, 8, b⟩

def wrapNew (parent : CBlockIndex) (nBits nNonce : UInt32) : NewBlock :=
  let nTime := UInt32.ofNat (1432700000 + 60 * (nHeight parent + 1)) + nNonce
  let vtx := [{ toyCoinbase (nHeight parent + 1) 100000000 with nTime := nTime }]
  ⟨1, 1000 * nNonce, {
    nVersion := 6
    hashPrevBlock := getBlockHash parent
    hashMerkleRoot := merkleRoot wrapEnv 1 (vtx.map (getTxHash wrapEnv))
    nTime := nTime
    nBits := nBits
    nNonce := nNonce
    vtx := vtx
    vchBlockSig := [] }⟩

def wrapIndex (parent : CBlockIndex) (nBits nNonce : UInt32) : CBlockIndex :=
  let new := wrapNew parent nBits nNonce
  .grow parent ⟨getHash wrapEnv new.block, new.nFile, new.nBlockPos, new.block⟩

def wrapOps : BlockOps := coreOps wrapEnv (fun _ => 1432800000) (fun _ => true)

theorem ok_of_toOption {E A : Type} {result : Except E A} {a : A}
    (returned : result.toOption = some a) : result = .ok a := by
  cases result with
  | error stop => cases returned
  | ok value => rw [some.inj returned]

/-- The part of a call of `AcceptBlock` that adds the block. -/
def receive (env : Env) (ops : BlockOps) (chain : ChainState) (new : NewBlock) : Option ChainState :=
  if (chain.mapBlockIndex.lookup new.block.hashPrevBlock).isSome then
    (addToBlockIndex env ops chain new).toOption.map Prod.snd
  else none

theorem ChainShape.receive (lawful : LawfulOps ops) (shape : ChainShape env genesis chain)
    (run : SyncCheckpoint.receive env ops chain new = some next) : ChainShape env genesis next := by
  unfold SyncCheckpoint.receive at run
  split_ifs at run with parent
  obtain ⟨⟨done, after⟩, added, rfl⟩ := map_eq_some_iff.mp run
  exact shape.add lawful parent (addResult (ok_of_toOption added))

theorem chainShape_genesis (hashed : getHash env genesis.block = genesis.phashBlock) :
    ChainShape env genesis (genesisState genesis []) := by
  refine ⟨mapTree_genesis genesis [] hashed, (indexedIn_genesis genesis [] _).mpr rfl, rfl, ?_⟩
  intro b c linked
  by_cases same : b = .root genesis
  · simp [genesisState, insertIndex, writeIndex, withTxdb, same] at linked
  · simp [genesisState, insertIndex, writeIndex, withTxdb] at linked

/-- A node that has seen no checkpoint message since it took `hashSyncCheckpoint`. -/
def atCheckpoint (chain : ChainState) (hashSyncCheckpoint : Uint256) : SyncNode :=
  ⟨chain, hashSyncCheckpoint, 0, 0, nullCheckpoint, nullCheckpoint, []⟩

def acceptStrict (s : SyncNode) (new : NewBlock) : Option SyncNode :=
  (acceptBlock wrapEnv (fun _ _ => none) (fun _ => ⟨0, true, 0⟩) .strict wrapOps 1432800000 s
    new).toOption.map Prod.snd

theorem step_acceptStrict {Meets : SyncNode → NewBlock → Prop} (meets : Meets s new)
    (run : acceptStrict s new = some t) : Step wrapEnv Meets s t := by
  obtain ⟨⟨done, after⟩, accepted, rfl⟩ := map_eq_some_iff.mp run
  exact .acceptBlock _ _ _ _ _ meets (ok_of_toOption accepted)

/-! ### A checkpoint that follows a block -/

def wrapStart : SyncNode := atCheckpoint (genesisState wrapGenesis []) wrapGenesis.phashBlock

def firstNew : NewBlock :=
  wrapNew (.root wrapGenesis) (getNextTargetRequired wrapEnv (.root wrapGenesis) false) 20

def followFirst (s : SyncNode) : Option SyncNode :=
  (processSyncCheckpoint wrapEnv wrapOps some s
    ⟨1, getHash wrapEnv firstNew.block, [], []⟩).toOption.map Prod.snd

theorem sync_checkpoint_safe_first : ∃ t u,
    Relation.ReflTransGen (Step wrapEnv FitsParent) wrapStart t ∧ Step wrapEnv FitsParent t u ∧
      Anchored t ∧ MovedUp t u := by
  have evaluated : ((acceptStrict wrapStart firstNew).bind fun t => (followFirst t).map
      fun u => decide (u.hashSyncCheckpoint = t.hashSyncCheckpoint)) = some false := by
    decide +kernel
  obtain ⟨t, accepted, rest⟩ := bind_eq_some_iff.mp evaluated
  obtain ⟨u, followed, different⟩ := map_eq_some_iff.mp rest
  have fits : FitsParent wrapStart firstNew := by
    intro pindexPrev found
    have parent : wrapStart.chain.mapBlockIndex.lookup firstNew.block.hashPrevBlock =
        some (.root wrapGenesis) := by decide +kernel
    rw [← some.inj (parent.symm.trans found)]
    unfold TrustFits
    decide +kernel
  have run : Relation.ReflTransGen (Step wrapEnv FitsParent) wrapStart t :=
    .single (step_acceptStrict fits accepted)
  have step : Step wrapEnv FitsParent t u := by
    obtain ⟨⟨done, after⟩, processed, rfl⟩ := map_eq_some_iff.mp followed
    exact .processSyncCheckpoint _ _ _ _ (ok_of_toOption processed)
  have unwrapped : Unwrapped wrapStart.chain := by
    intro p record member
    cases (indexedIn_genesis wrapGenesis [] _).mp member
  obtain ⟨anchored, _, moves⟩ := sync_checkpoint_safe wrapEnv wrapGenesis wrapStart t rfl
    (chainShape_genesis rfl) ⟨.root wrapGenesis, by decide +kernel, by decide +kernel⟩
    unwrapped run
  exact ⟨t, u, run, step, anchored, (moves u step).resolve_left (of_decide_eq_false different)⟩

/-! ### A switch below the checkpoint -/

def heavyIndex : CBlockIndex := wrapIndex (.root wrapGenesis) 0x01010000 1
def syncIndex : CBlockIndex := wrapIndex heavyIndex 0x1f00ffff 10
def sideIndex : CBlockIndex := wrapIndex syncIndex 0x1f00ffff 11
def highIndex : CBlockIndex := wrapIndex syncIndex 0x01020000 2
def wrappedIndex : CBlockIndex := wrapIndex highIndex 0x01040000 3

def sideNew : NewBlock := wrapNew sideIndex (getNextTargetRequired wrapEnv sideIndex false) 12

def wrapTree : Option ChainState :=
  [wrapNew (.root wrapGenesis) 0x01010000 1, wrapNew heavyIndex 0x1f00ffff 10,
    wrapNew syncIndex 0x1f00ffff 11, wrapNew syncIndex 0x01020000 2,
    wrapNew highIndex 0x01040000 3].foldlM (receive wrapEnv wrapOps) (genesisState wrapGenesis [])

/-- The tree with `wrappedIndex` as best block, as after a checkpoint at it. -/
def wrapChain : Option ChainState :=
  wrapTree.bind fun chain => (setBestChain wrapEnv wrapOps chain wrappedIndex).toOption.map Prod.snd

theorem wrapChain_shape (built : wrapChain = some chain) :
    ChainShape wrapEnv wrapGenesis chain := by
  have lawful : LawfulOps wrapOps := lawful_coreOps _ _ _
  obtain ⟨tree, grown, rest⟩ := bind_eq_some_iff.mp built
  obtain ⟨⟨done, next⟩, switched, rfl⟩ := map_eq_some_iff.mp rest
  have shape := (foldlM_rule (ChainShape wrapEnv wrapGenesis) (fun _ => True)
    (fun _ _ _ before run => ⟨before.receive lawful run, trivial⟩) _
    (chainShape_genesis rfl) grown).1
  have present : (wrapTree.map fun chain => chain.mapBlockIndex.lookup (getBlockHash wrappedIndex)) =
      some (some wrappedIndex) := by decide +kernel
  rw [grown] at present
  have child : wrappedIndex ≠ .root wrapGenesis := by
    intro impossible
    cases impossible
  exact (shape.set lawful (some.inj present) child (setResult (ok_of_toOption switched))).1

/-- The sums of `wrappedIndex` wrap to a thirtieth of the trust of its ancestor
`heavyIndex`.  A block beside it is enough for a switch, which reorganises to
`heavyIndex` first and disconnects the checkpoint on the way. -/
theorem wrapped_trust_disconnects : ∃ chain t,
    wrapChain = some chain ∧ ChainShape wrapEnv wrapGenesis chain ∧
    Anchored (atCheckpoint chain (getBlockHash syncIndex)) ∧
    Step wrapEnv (fun _ _ => True) (atCheckpoint chain (getBlockHash syncIndex)) t ∧
    ¬SparesSince (atCheckpoint chain (getBlockHash syncIndex)) t := by
  obtain ⟨chain, built, found, best, t, accepted, switches⟩ : ∃ chain ∈ wrapChain,
      chain.mapBlockIndex.lookup (getBlockHash syncIndex) = some syncIndex ∧
      chain.pindexBest = wrappedIndex ∧
      ∃ t ∈ acceptStrict (atCheckpoint chain (getBlockHash syncIndex)) sideNew,
        (t.switches.map fun call => (call.disconnected, call.hashSyncCheckpoint)) =
          [([wrappedIndex, highIndex, syncIndex], getBlockHash syncIndex)] := by
    decide +kernel
  refine ⟨chain, t, built, wrapChain_shape built, ⟨syncIndex, found, ?_⟩,
    step_acceptStrict trivial accepted, ?_⟩
  · have onPath : syncIndex ∈ path wrappedIndex := by decide +kernel
    exact best ▸ onPath
  · rintro ⟨made, shape, spared⟩
    have all : t.switches = made := by rw [shape]; exact List.append_nil made
    rw [all] at switches
    obtain ⟨call, _, split, here, _⟩ := List.map_eq_cons_iff.mp switches
    simp only [Prod.mk.injEq] at here
    refine spared call (by rw [split]; exact List.mem_cons_self) syncIndex ?_ here.2.symm
    rw [here.1]
    simp

end SynergyChain.SyncCheckpoint
