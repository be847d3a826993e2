import SynergyFormal.Chain.Kernel
import SynergyFormal.Chain.Difficulty
import SynergyFormal.Chain.BlockMap

/-!
# Synchronized checkpoints and AcceptBlock

`CheckSync`, `ValidateSyncCheckpoint`, `AcceptPendingSyncCheckpoint` and
`ProcessSyncCheckpoint` of `checkpoints.cpp`, and `AcceptBlock`, which calls them.  The
globals of the checkpoint code stand beside the chain state.  The block files and the
record of the sync checkpoint in the database do not fail; relaying, asking peers and the
warning of the advisory mode are left out.

`switches` is not in the source: it lists the calls of `SetBestChain` made so far, each
with the state and the sync checkpoint it was made in.
-/

set_option autoImplicit false

namespace SynergyChain.AcceptBlock

open SynergyData
open SynergyLib.Wire SynergyLib.Tree Transaction CheckTransaction Block SynergyPool.MemPool
  BestChain StakeModifier Kernel Difficulty Switch BlockMap

inductive CPMode where
  | strict
  | advisory
  | permissive
  deriving DecidableEq

structure CSyncCheckpoint where
  nVersion : Int32
  hashCheckpoint : Uint256
  vchMsg : Bytes
  vchSig : Bytes
  deriving DecidableEq

def nullCheckpoint : CSyncCheckpoint := ⟨1, 0, [], []⟩

/-- A call of `SetBestChain`. -/
structure SwitchCall where
  hashSyncCheckpoint : Uint256
  chain : ChainState
  pindexNew : CBlockIndex

/-- The blocks on the list `vDisconnect` of the call. -/
def SwitchCall.disconnected (call : SwitchCall) : List CBlockIndex :=
  if (blockOf call.pindexNew).hashPrevBlock = call.chain.hashBestChain then []
  else
    match findFork call.chain.pindexBest (pindexIntermediate call.chain call.pindexNew) with
    | none => []
    | some pfork => vDisconnect pfork call.chain.pindexBest

structure SyncNode where
  chain : ChainState
  hashSyncCheckpoint : Uint256
  hashPendingCheckpoint : Uint256
  hashInvalidCheckpoint : Uint256
  checkpointMessage : CSyncCheckpoint
  checkpointMessagePending : CSyncCheckpoint
  switches : List SwitchCall

/-- Why a call does not return. -/
inductive Stop where
  | fault (fault : Fault)
  | assertion

def called (s : SyncNode) (chain : ChainState) (pindexNew : CBlockIndex) : List SwitchCall :=
  ⟨s.hashSyncCheckpoint, chain, pindexNew⟩ :: s.switches

/-! ## Sync checkpoints -/

def isInMainChain (chain : ChainState) (pindex : CBlockIndex) : Bool :=
  (chain.ledger.pnext pindex).isSome || decide (pindex = chain.pindexBest)

def validateSyncCheckpoint (s : SyncNode) (hashCheckpoint : Uint256) : Bool × SyncNode :=
  match s.chain.mapBlockIndex.lookup s.hashSyncCheckpoint,
      s.chain.mapBlockIndex.lookup hashCheckpoint with
  | some pindexSyncCheckpoint, some pindexCheckpointRecv =>
    if nHeight pindexCheckpointRecv ≤ nHeight pindexSyncCheckpoint then
      if getBlockHash (liftTo (nHeight pindexCheckpointRecv) pindexSyncCheckpoint) =
          hashCheckpoint then (false, s)
      else (false, { s with hashInvalidCheckpoint := hashCheckpoint })
    else if getBlockHash (liftTo (nHeight pindexSyncCheckpoint) pindexCheckpointRecv) =
        s.hashSyncCheckpoint then (true, s)
    else (false, { s with hashInvalidCheckpoint := hashCheckpoint })
  | _, _ => (false, s)

/-- The switch to the chain of a valid checkpoint, which both callers make. -/
def enforceCheckpoint (env : Env) (ops : BlockOps) (s : SyncNode) (pindexCheckpoint : CBlockIndex) :
    Except Stop (Bool × SyncNode) :=
  if isInMainChain s.chain pindexCheckpoint then .ok (true, s)
  else if !ops.readable pindexCheckpoint then .ok (false, s)
  else
    match setBestChain env ops s.chain pindexCheckpoint with
    | .error fault => .error (.fault fault)
    | .ok (true, chain) =>
      .ok (true, { s with chain := chain, switches := called s s.chain pindexCheckpoint })
    | .ok (false, chain) =>
      .ok (false, { s with
        chain := chain
        hashInvalidCheckpoint := getBlockHash pindexCheckpoint
        switches := called s s.chain pindexCheckpoint })

def acceptPendingSyncCheckpoint (env : Env) (ops : BlockOps) (s : SyncNode) :
    Except Stop (Bool × SyncNode) :=
  if s.hashPendingCheckpoint = 0 then .ok (false, s)
  else
    match s.chain.mapBlockIndex.lookup s.hashPendingCheckpoint with
    | none => .ok (false, s)
    | some pindexCheckpoint =>
      match validateSyncCheckpoint s s.hashPendingCheckpoint with
      | (false, t) => .ok (false, { t with
          hashPendingCheckpoint := 0
          checkpointMessagePending := nullCheckpoint })
      | (true, t) =>
        match enforceCheckpoint env ops t pindexCheckpoint with
        | .error stop => .error stop
        | .ok (false, u) => .ok (false, u)
        | .ok (true, u) => .ok (true, { u with
            hashSyncCheckpoint := s.hashPendingCheckpoint
            hashPendingCheckpoint := 0
            checkpointMessage := u.checkpointMessagePending
            checkpointMessagePending := nullCheckpoint })

/-- `checkSignature` verifies a message and unserializes its checkpoint. -/
def processSyncCheckpoint (env : Env) (ops : BlockOps)
    (checkSignature : CSyncCheckpoint → Option CSyncCheckpoint) (s : SyncNode)
    (message : CSyncCheckpoint) : Except Stop (Bool × SyncNode) :=
  match checkSignature message with
  | none => .ok (false, s)
  | some signed =>
    match s.chain.mapBlockIndex.lookup signed.hashCheckpoint with
    | none => .ok (false, { s with
        hashPendingCheckpoint := signed.hashCheckpoint
        checkpointMessagePending := signed })
    | some pindexCheckpoint =>
      match validateSyncCheckpoint s signed.hashCheckpoint with
      | (false, t) => .ok (false, t)
      | (true, t) =>
        match enforceCheckpoint env ops t pindexCheckpoint with
        | .error stop => .error stop
        | .ok (false, u) => .ok (false, u)
        | .ok (true, u) => .ok (true, { u with
            hashSyncCheckpoint := signed.hashCheckpoint
            hashPendingCheckpoint := 0
            checkpointMessage := signed
            checkpointMessagePending := nullCheckpoint })

/-- The result is `none` when the assertion fails that the sync checkpoint is indexed. -/
def checkSync (env : Env) (s : SyncNode) (hashBlock : Uint256) (pindexPrev : CBlockIndex) :
    Option Bool :=
  if env.fTestNet then some true
  else
    (s.chain.mapBlockIndex.lookup s.hashSyncCheckpoint).map fun pindexSync =>
      if nHeight pindexSync < nHeight pindexPrev + 1 then
        decide (nHeight pindexSync ≤ nHeight (liftTo (nHeight pindexSync) pindexPrev)) &&
          decide (getBlockHash (liftTo (nHeight pindexSync) pindexPrev) = s.hashSyncCheckpoint)
      else if nHeight pindexPrev + 1 = nHeight pindexSync then
        decide (hashBlock = s.hashSyncCheckpoint)
      else (s.chain.mapBlockIndex.lookup hashBlock).isSome

/-! ## AcceptBlock -/

def modifierIntervalSwitch : Nat := 2

def mapCheckpoints (env : Env) : List (Nat × Uint256) :=
  if env.fTestNet then
    [(0, 0x0001171dc6387bcdd83d845590ced3bcb6e31d7d08f0a193755d0f5694e5dca2)]
  else
    [(0, 0x0000d31a9c2fe162db1175626d062ef06c235baf4986464bdd40e51da037375b),
      (32750, 0xd8e33a97d49289a039833e7e5885cc1ca4787aa912137f62bc24a3ca08515056),
      (39000, 0x097e3ef51348ca5b21262acf6f2b1b460d823587f68554958a45a0bece25c277),
      (63000, 0xcaf2efdffebbc6b959e8c859b7b6eaa1b9c36bf6c15b1d63640f2d268dd52c83),
      (87500, 0xf66088039152f8da7b0f7ee883e95e46855bdcc0828199f090344584b5bcefa6)]

def checkHardened (env : Env) (nHeight : Nat) (hash : Uint256) : Bool :=
  match (mapCheckpoints env).lookup nHeight with
  | none => true
  | some checkpoint => decide (hash = checkpoint)

/-- The checks of `AcceptBlock` on the place of a block in its chain. -/
def checkContext (env : Env) (adjustedTime : Int) (chain : ChainState) (pindexPrev : CBlockIndex)
    (b : CBlock) : Bool :=
  (isProofOfStake b || decide (nHeight pindexPrev + 1 ≤ lastPowBlock)) &&
    (!isProofOfStake b || decide (modifierIntervalSwitch ≤ nHeight pindexPrev + 1)) &&
    decide (b.nBits = getNextTargetRequired env pindexPrev (isProofOfStake b)) &&
    checkBlockTime pindexPrev b &&
    b.vtx.all (fun tx => isFinal chain.ledger.nBestHeight adjustedTime tx
      (nHeight pindexPrev + 1 : Nat) b.nTime.toNat) &&
    checkHardened env (nHeight pindexPrev + 1) (getHash env b)

/-- The kernel check of a proof-of-stake block; `none` when its walk does not end. -/
def checkBlockStake (env : Env) (readHeader : UInt32 → UInt32 → Option CBlock) (stake : StakeTable)
    (chain : ChainState) (b : CBlock) : Option Bool :=
  match b.vtx with
  | _ :: second :: _ =>
    if isCoinStake second then
      (checkProofOfStake env readHeader stake chain second b.nBits).map KernelOutcome.passed
    else some true
  | _ => some true

/-- `AddToBlockIndex` calls `SetBestChain` for this block. -/
def triesToSwitch (env : Env) (ops : BlockOps) (chain : ChainState) (new : NewBlock) : Bool :=
  (chain.mapBlockIndex.lookup (getHash env new.block)).isNone &&
    ops.checkStakeModifier (newIndex env chain new) && ops.commitsIndex (newIndex env chain new) &&
    decide (chain.nBestChainTrust < nChainTrust (newIndex env chain new))

def addBlock (env : Env) (ops : BlockOps) (s : SyncNode) (new : NewBlock) :
    Except Stop (Bool × SyncNode) :=
  match addToBlockIndex env ops s.chain new with
  | .error fault => .error (.fault fault)
  | .ok (done, chain) =>
    .ok (done, { s with
      chain := chain
      switches := if triesToSwitch env ops s.chain new then
          called s (indexed s.chain (newIndex env s.chain new)) (newIndex env s.chain new)
        else s.switches })

def acceptBlock (env : Env) (readHeader : UInt32 → UInt32 → Option CBlock) (stake : StakeTable)
    (mode : CPMode) (ops : BlockOps) (adjustedTime : Int) (s : SyncNode) (new : NewBlock) :
    Except Stop (Bool × SyncNode) :=
  if (s.chain.mapBlockIndex.lookup (getHash env new.block)).isSome then .ok (false, s)
  else
    match s.chain.mapBlockIndex.lookup new.block.hashPrevBlock with
    | none => .ok (false, s)
    | some pindexPrev =>
      if !checkContext env adjustedTime s.chain pindexPrev new.block then .ok (false, s)
      else
        match checkBlockStake env readHeader stake s.chain new.block with
        | none => .error (.fault .nonterminating)
        | some false => .ok (false, s)
        | some true =>
          match checkSync env s (getHash env new.block) pindexPrev with
          | none => .error .assertion
          | some cpSatisfies =>
            if mode = .strict ∧ cpSatisfies = false then .ok (false, s)
            else if !checkCoinbaseHeight (nHeight pindexPrev + 1) new.block then .ok (false, s)
            else
              match addBlock env ops s new with
              | .error stop => .error stop
              | .ok (false, t) => .ok (false, t)
              | .ok (true, t) =>
                match acceptPendingSyncCheckpoint env ops t with
                | .error stop => .error stop
                | .ok (_, u) => .ok (true, u)

/-- A block that is not refused by the checks is added, and the pending checkpoint is
tried after it. -/
inductive AcceptResult (env : Env) (mode : CPMode) (ops : BlockOps) (s : SyncNode) (new : NewBlock) :
    Bool → SyncNode → Prop where
  | refused : AcceptResult env mode ops s new false s
  | unplaced {pindexPrev : CBlockIndex} {t : SyncNode}
      (fresh : s.chain.mapBlockIndex.lookup (getHash env new.block) = none)
      (found : s.chain.mapBlockIndex.lookup new.block.hashPrevBlock = some pindexPrev)
      (passes : mode = .strict → checkSync env s (getHash env new.block) pindexPrev = some true)
      (added : addBlock env ops s new = .ok (false, t)) :
      AcceptResult env mode ops s new false t
  | placed {pindexPrev : CBlockIndex} {t u : SyncNode} {advanced : Bool}
      (fresh : s.chain.mapBlockIndex.lookup (getHash env new.block) = none)
      (found : s.chain.mapBlockIndex.lookup new.block.hashPrevBlock = some pindexPrev)
      (passes : mode = .strict → checkSync env s (getHash env new.block) pindexPrev = some true)
      (added : addBlock env ops s new = .ok (true, t))
      (pending : acceptPendingSyncCheckpoint env ops t = .ok (advanced, u)) :
      AcceptResult env mode ops s new true u

theorem acceptResult {env : Env} {readHeader : UInt32 → UInt32 → Option CBlock}
    {stake : StakeTable} {mode : CPMode} {ops : BlockOps} {adjustedTime : Int} {s t : SyncNode}
    {new : NewBlock} {done : Bool}
    (run : acceptBlock env readHeader stake mode ops adjustedTime s new = .ok (done, t)) :
    AcceptResult env mode ops s new done t := by
  unfold acceptBlock at run
  split at run
  · cases run
    exact .refused
  · rename_i duplicate
    have fresh : Unindexed env s.chain new := by
      simpa using duplicate
    split at run
    · cases run
      exact .refused
    · rename_i pindexPrev found
      split at run
      · cases run
        exact .refused
      · split at run
        · cases run
        · cases run
          exact .refused
        · split at run
          · cases run
          · rename_i cpSatisfies checked
            split_ifs at run with refused
            · cases run
              exact .refused
            · cases run
              exact .refused
            · have passes : mode = .strict →
                  checkSync env s (getHash env new.block) pindexPrev = some true := by
                intro strict
                simpa [strict, checked] using refused
              split at run
              · cases run
              · rename_i middle added
                cases run
                exact .unplaced fresh found passes added
              · rename_i middle added
                split at run
                · cases run
                · rename_i advanced last pending
                  cases run
                  exact .placed fresh found passes added pending

/-! ## Height tags -/

open SynergyData.Script SynergyLedger.SpentIndex

/-- `AcceptBlock` took a block at this height with the coinbase `tx`. -/
def AcceptedAt (height : Nat) (tx : CTransaction) : Prop :=
  ∃ env readHeader stake mode ops adjustedTime s new t pindexPrev,
    acceptBlock env readHeader stake mode ops adjustedTime s new = .ok (true, t) ∧
    s.chain.mapBlockIndex.lookup new.block.hashPrevBlock = some pindexPrev ∧
    nHeight pindexPrev + 1 = height ∧ new.block.vtx.head? = some tx

theorem AcceptedAt.tagged {height : Nat} {tx : CTransaction} (accepted : AcceptedAt height tx) :
    Tagged height tx := by
  obtain ⟨env, readHeader, stake, mode, ops, adjustedTime, s, new, t, pindexPrev, run, found, rfl,
    first⟩ := accepted
  have check : checkCoinbaseHeight (nHeight pindexPrev + 1) new.block = true := by
    grind [acceptBlock]
  obtain ⟨rest, shape⟩ := List.head?_eq_some_iff.mp first
  exact tagged_of_check shape check

theorem height_tags_unambiguous (first second : Nat) (below : first < second)
    (fits : second < 2 ^ 31) :
    (∀ scriptSig, ¬(pushInt64 first <+: scriptSig ∧ pushInt64 second <+: scriptSig)) ∧
    ∀ a b, AcceptedAt first a → AcceptedAt second b → a.vin ≠ b.vin := by
  have apart : ∀ scriptSig, ¬(pushInt64 first <+: scriptSig ∧ pushInt64 second <+: scriptSig) := by
    rintro scriptSig ⟨⟨s, firstSplit⟩, ⟨t, secondSplit⟩⟩
    have equal := height_tag_unique (pushInt64_length (below.trans fits)) (pushInt64_length fits)
      (firstSplit.trans secondSplit.symm)
    omega
  refine ⟨apart, ?_⟩
  intro a b acceptedA acceptedB vins
  obtain ⟨txin, rest, inputs, tag⟩ := acceptedA.tagged
  obtain ⟨txin', rest', inputs', tag'⟩ := acceptedB.tagged
  rw [← vins, inputs] at inputs'
  cases inputs'
  exact apart txin.scriptSig ⟨tag, tag'⟩

theorem height_tags_unambiguous_sixteen :
    (∀ scriptSig, ¬(pushInt64 (16 : Nat) <+: scriptSig ∧ pushInt64 (17 : Nat) <+: scriptSig)) ∧
    ∀ a b, AcceptedAt 16 a → AcceptedAt 17 b → a.vin ≠ b.vin :=
  height_tags_unambiguous 16 17 (by decide) (by decide)

end SynergyChain.AcceptBlock
