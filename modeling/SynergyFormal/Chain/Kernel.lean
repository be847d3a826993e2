import SynergyFormal.Chain.StakeModifier

/-!
# The kernel check

`GetKernelStakeModifier`, `CheckStakeKernelHash` and `CheckProofOfStake` of `kernel.cpp`.
The modifier of a kernel is looked up along the `pnext` links of the active chain.  It is
the modifier of `kernelBlock`, the first block above the staked output whose own modifier
was generated a selection interval later.

Two nodes with the same block tree but another active chain agree on a kernel when their
active chains have kernel blocks with the same modifier.  Nothing ties these to the branch
that the checked block extends.
-/

set_option autoImplicit false

namespace SynergyChain.Kernel

open SynergyData SynergyLedger
open SynergyLib.Wire SynergyLib.Tree Transaction Block TxDB Reward ConnectBlock BestChain
  StakeModifier

def nStakeMaxAge : Nat := 60 * 60 * 24 * 6

def getWeight (env : Env) (nIntervalBeginning nIntervalEnd : Int) : Int :=
  min (nIntervalEnd - nIntervalBeginning - nStakeMinAge env) nStakeMaxAge

/-! ## The modifier of a kernel -/

/-- The loop of `GetKernelStakeModifier`; `some none` when it reaches the best block. -/
def kernelLoop (stake : StakeTable) (pnext : CBlockIndex → Option CBlockIndex) (stop : Int) :
    Nat → CBlockIndex → Int → Option (Option CBlockIndex)
  | 0, pindex, nStakeModifierTime => if nStakeModifierTime < stop then none else some (some pindex)
  | fuel + 1, pindex, nStakeModifierTime =>
    if nStakeModifierTime < stop then
      match pnext pindex with
      | none => some none
      | some next =>
        kernelLoop stake pnext stop fuel next
          (if (stake next).generated then (nTime next : Int) else nStakeModifierTime)
    else some (some pindex)

def selectionStop (env : Env) (pindexFrom : CBlockIndex) : Int :=
  nTime pindexFrom + getStakeModifierSelectionInterval env

/-- The outer `none` stands for a walk longer than the active chain. -/
def getKernelStakeModifier (env : Env) (stake : StakeTable) (node : ChainState)
    (hashBlockFrom : Uint256) : Option (Option UInt64) :=
  match node.mapBlockIndex.lookup hashBlockFrom with
  | none => some none
  | some pindexFrom =>
    (kernelLoop stake node.ledger.pnext (selectionStop env pindexFrom)
      (nHeight node.pindexBest + 1) pindexFrom (nTime pindexFrom)).map
        (Option.map fun pindex => (stake pindex).nStakeModifier)

/-- A modifier was generated at the block, at the end of the interval or later. -/
def late (stake : StakeTable) (stop : Int) (pindex : CBlockIndex) : Bool :=
  (stake pindex).generated && decide (stop ≤ nTime pindex)

def kernelBlock (env : Env) (stake : StakeTable) (pindexFrom tip : CBlockIndex) :
    Option CBlockIndex :=
  (vConnect pindexFrom tip).find? (late stake (selectionStop env pindexFrom))

def kernelModifier (env : Env) (stake : StakeTable) (pindexFrom tip : CBlockIndex) :
    Option UInt64 :=
  (kernelBlock env stake pindexFrom tip).map fun pindex => (stake pindex).nStakeModifier

variable {stake : StakeTable} {tip : CBlockIndex} {env : Env}

theorem kernelLoop_eq_seek {pnext : CBlockIndex → Option CBlockIndex} {stop : Int} :
    ∀ (fuel : Nat) (pindex : CBlockIndex) (nStakeModifierTime : Int),
      nStakeModifierTime < stop →
        kernelLoop stake pnext stop fuel pindex nStakeModifierTime =
          seek (late stake stop) pnext fuel pindex := by
  intro fuel
  induction fuel with
  | zero =>
    intro pindex nStakeModifierTime early
    rw [kernelLoop, if_pos early, seek]
  | succ fuel ih =>
    intro pindex nStakeModifierTime early
    rw [kernelLoop, if_pos early, seek]
    cases pnext pindex with
    | none => rfl
    | some next =>
      dsimp only
      cases generated : (stake next).generated with
      | false =>
        have earlyNext : late stake stop next = false := by simp [late, generated]
        rw [if_neg (by simp), earlyNext]
        exact ih next nStakeModifierTime early
      | true =>
        rw [if_pos rfl]
        by_cases later : stop ≤ nTime next
        · have lateNext : late stake stop next = true := by simp [late, generated, later]
          rw [lateNext, if_pos rfl]
          cases fuel <;> rw [kernelLoop, if_neg (by omega)]
        · have earlyNext : late stake stop next = false := by
            simp [late, generated, later]
          rw [earlyNext]
          exact ih next _ (by omega)

/-- On an active chain that contains the block the loop ends at the kernel block of the
chain, or at its tip. -/
theorem kernelLoop_active {pindexFrom : CBlockIndex} (onChain : pindexFrom ∈ path tip) :
    kernelLoop stake (links tip) (selectionStop env pindexFrom) (nHeight tip + 1) pindexFrom
      (nTime pindexFrom) = some (kernelBlock env stake pindexFrom tip) := by
  have positive := selectionInterval_pos env
  rw [kernelLoop_eq_seek _ _ _ (by rw [selectionStop]; omega),
    seek_links _ pindexFrom onChain (by rw [nHeight]; omega)]
  rfl

/-! ## The check -/

/-- Whether the check passed, and the values it has written. -/
structure KernelOutcome where
  passed : Bool
  hashProofOfStake : Option Uint256
  targetProofOfStake : Option Uint256
  deriving DecidableEq

def failed : KernelOutcome := ⟨false, none, none⟩

/-- What is hashed with the modifier, and the bound on the hash. -/
structure StakeKernel where
  nTimeBlockFrom : UInt32
  nTxPrevOffset : UInt32
  nTimeTxPrev : UInt32
  nPrevout : UInt32
  nTimeTx : UInt32
  bnTarget : Int
  deriving DecidableEq

def StakeKernel.hashProof (env : Env) (kernel : StakeKernel) (nStakeModifier : UInt64) : Uint256 :=
  env.hash (leBytes 8 nStakeModifier.toNat ++ writeUint32 kernel.nTimeBlockFrom ++
    writeUint32 kernel.nTxPrevOffset ++ writeUint32 kernel.nTimeTxPrev ++
    writeUint32 kernel.nPrevout ++ writeUint32 kernel.nTimeTx)

/-- The end of `CheckStakeKernelHash`; the target is written before the modifier is
looked up. -/
def StakeKernel.outcome (env : Env) (kernel : StakeKernel) : Option UInt64 → KernelOutcome
  | none => ⟨false, none, some (BitVec.ofNat 256 kernel.bnTarget.natAbs)⟩
  | some nStakeModifier =>
    ⟨decide ((kernel.hashProof env nStakeModifier).toNat ≤ kernel.bnTarget),
      some (kernel.hashProof env nStakeModifier),
      some (BitVec.ofNat 256 kernel.bnTarget.natAbs)⟩

theorem StakeKernel.outcome_injective (kernel : StakeKernel)
    (separates : Function.Injective (kernel.hashProof env)) :
    Function.Injective (kernel.outcome env) := by
  intro first second agree
  cases first with
  | none =>
    cases second with
    | none => rfl
    | some nStakeModifier => simp [StakeKernel.outcome] at agree
  | some nStakeModifier =>
    cases second with
    | none => simp [StakeKernel.outcome] at agree
    | some other =>
      have same := (KernelOutcome.mk.inj agree).2.1
      rw [separates (Option.some.inj same)]

def bnCoinDayWeight (env : Env) (nValueIn : Int64) (nTimeTxPrev nTimeTx : UInt32) : Int :=
  ((nValueIn.toInt * getWeight env nTimeTxPrev.toNat nTimeTx.toNat).tdiv coin).tdiv (24 * 60 * 60)

/-- The start of `CheckStakeKernelHash`; the minimum age is added as an `unsigned int`. -/
def stakeKernel (env : Env) (nBits : UInt32) (blockFrom : CBlock) (nTxPrevOffset : UInt32)
    (txPrev : CTransaction) (txout : CTxOut) (prevout : COutPoint) (nTimeTx : UInt32) :
    Option StakeKernel :=
  if nTimeTx < txPrev.nTime then none
  else if nTimeTx < blockFrom.nTime + UInt32.ofNat (nStakeMinAge env) then none
  else some
    { nTimeBlockFrom := blockFrom.nTime
      nTxPrevOffset := nTxPrevOffset
      nTimeTxPrev := txPrev.nTime
      nPrevout := prevout.n
      nTimeTx := nTimeTx
      bnTarget := bnCoinDayWeight env txout.nValue txPrev.nTime nTimeTx * setCompact nBits }

def checkStakeKernelHash (env : Env) (stake : StakeTable) (node : ChainState) (nBits : UInt32)
    (blockFrom : CBlock) (nTxPrevOffset : UInt32) (txPrev : CTransaction) (txout : CTxOut)
    (prevout : COutPoint) (nTimeTx : UInt32) : Option KernelOutcome :=
  match stakeKernel env nBits blockFrom nTxPrevOffset txPrev txout prevout nTimeTx with
  | none => some failed
  | some kernel =>
    (getKernelStakeModifier env stake node (getHash env blockFrom)).map (kernel.outcome env)

/-- `readHeader` is `CBlock::ReadFromDisk(nFile, nBlockPos, false)`. -/
def checkProofOfStake (env : Env) (readHeader : UInt32 → UInt32 → Option CBlock)
    (stake : StakeTable) (node : ChainState) (tx : CTransaction) (nBits : UInt32) :
    Option KernelOutcome :=
  if !isCoinStake tx then some failed
  else
    match tx.vin with
    | [] => some failed
    | txin :: _ =>
      match readPrevout env node.ledger.txdb txin.prevout with
      | none => some failed
      | some (txindex, txPrev, txout) =>
        if !env.verifySignature txPrev tx 0 then some failed
        else
          match readHeader txindex.pos.nFile txindex.pos.nBlockPos with
          | none => some failed
          | some block =>
            checkStakeKernelHash env stake node nBits block
              (txindex.pos.nTxPos - txindex.pos.nBlockPos) txPrev txout txin.prevout tx.nTime

/-! ## Two active chains -/

/-- The kernel of a coinstake whose staked transaction lies at `pos`, if the check gets as
far as the modifier. -/
def kernelAt (env : Env) (readHeader : UInt32 → UInt32 → Option CBlock) (pos : CDiskTxPos)
    (tx : CTransaction) (nBits : UInt32) : Option StakeKernel :=
  if isCoinStake tx then do
    let txin ← tx.vin.head?
    let txPrev ← env.readTx pos
    let txout ← txPrev.vout[txin.prevout.n.toNat]?
    if env.verifySignature txPrev tx 0 then
      let block ← readHeader pos.nFile pos.nBlockPos
      stakeKernel env nBits block (pos.nTxPos - pos.nBlockPos) txPrev txout txin.prevout tx.nTime
    else none
  else none

/-- The active chain contains the block `pindexFrom`, and the transaction index has the
staked transaction at a position in that block. -/
structure Contains (env : Env) (readHeader : UInt32 → UInt32 → Option CBlock)
    (node : ChainState) (tx : CTransaction) (pindexFrom : CBlockIndex) (pos : CDiskTxPos) :
    Prop where
  linked : node.ledger.pnext = links node.pindexBest
  onChain : pindexFrom ∈ path node.pindexBest
  indexed : node.mapBlockIndex.lookup (getBlockHash pindexFrom) = some pindexFrom
  header : ∀ block, readHeader pos.nFile pos.nBlockPos = some block →
    getHash env block = getBlockHash pindexFrom
  placed : ∀ txin ∈ tx.vin.head?, ∃ txindex,
    readTxIndex node.ledger.txdb txin.prevout.hash = some txindex ∧ txindex.pos = pos

section Active
variable {readHeader : UInt32 → UInt32 → Option CBlock}
variable {node : ChainState} {tx : CTransaction} {pindexFrom : CBlockIndex} {pos : CDiskTxPos}

theorem Contains.modifier_eq (active : Contains env readHeader node tx pindexFrom pos) :
    getKernelStakeModifier env stake node (getBlockHash pindexFrom) =
      some (kernelModifier env stake pindexFrom node.pindexBest) := by
  rw [getKernelStakeModifier, active.indexed]
  dsimp only
  rw [active.linked, kernelLoop_active active.onChain]
  rfl

theorem Contains.check_eq (active : Contains env readHeader node tx pindexFrom pos)
    {nBits : UInt32} : checkProofOfStake env readHeader stake node tx nBits =
      some (match kernelAt env readHeader pos tx nBits with
        | none => failed
        | some kernel =>
          kernel.outcome env (kernelModifier env stake pindexFrom node.pindexBest)) := by
  unfold checkProofOfStake kernelAt
  cases isCoinStake tx with
  | false => rfl
  | true =>
    cases inputs : tx.vin with
    | nil => rfl
    | cons txin rest =>
      obtain ⟨txindex, entry, rfl⟩ := active.placed txin (by simp [inputs])
      simp only [readPrevout, entry]
      cases env.readTx txindex.pos with
      | none => rfl
      | some txPrev =>
        cases staked : txPrev.vout[txin.prevout.n.toNat]? with
        | none => simp [staked]
        | some txout =>
          cases signed : env.verifySignature txPrev tx 0 with
          | false => simp [staked, signed]
          | true =>
            cases read : readHeader txindex.pos.nFile txindex.pos.nBlockPos with
            | none => simp [staked, signed, read]
            | some block =>
              simp only [staked, signed, read, checkStakeKernelHash, Option.map_some,
                active.header block read, active.modifier_eq,
                List.head?_cons, Option.bind_eq_bind, Option.bind_some, Bool.not_true,
                Bool.false_eq_true, if_false, if_true]
              cases stakeKernel env nBits block _ txPrev txout txin.prevout tx.nTime <;> rfl

end Active

/-- Two active chains with the block of the staked output give the same verdict and the
same proof hash exactly when the modifier is not reached or is the same on both. -/
theorem kernel_check_agrees_iff (env : Env) (readHeader : UInt32 → UInt32 → Option CBlock)
    (stake : StakeTable) (first second : ChainState) (tx : CTransaction) (nBits : UInt32)
    (pindexFrom : CBlockIndex) (pos : CDiskTxPos)
    (onFirst : Contains env readHeader first tx pindexFrom pos)
    (onSecond : Contains env readHeader second tx pindexFrom pos)
    (separates : ∀ kernel ∈ kernelAt env readHeader pos tx nBits,
      Function.Injective (kernel.hashProof env)) :
    checkProofOfStake env readHeader stake first tx nBits =
        checkProofOfStake env readHeader stake second tx nBits ↔
      kernelAt env readHeader pos tx nBits = none ∨
        kernelModifier env stake pindexFrom first.pindexBest =
          kernelModifier env stake pindexFrom second.pindexBest := by
  rw [onFirst.check_eq, onSecond.check_eq, Option.some.injEq]
  cases read : kernelAt env readHeader pos tx nBits with
  | none => simp
  | some kernel =>
    have injective := separates kernel read
    constructor
    · intro agree
      exact Or.inr (kernel.outcome_injective injective agree)
    · rintro (missing | same)
      · cases missing
      · dsimp only
        rw [same]

/-! ## Two branches above a staked output

The block `stakedIndex` pays the output, and two branches of two blocks stand above it.
The second block of each has a generated modifier with the entropy bits of the blocks
before it; the first blocks, `leftIndex` and `rightIndex`, differ in theirs. -/

/-- The hash of a kernel shows its modifier, with the low byte in front. -/
def forkHash (bytes : Bytes) : Uint256 :=
  if bytes.length = 28 then
    BitVec.ofNat 256 (readBytes (bytes.take 8) % 256 * 2 ^ 244 + readBytes (bytes.take 8) / 256)
  else toyHash bytes

def forkCoinbase (height : Nat) (nTime : UInt32) : CTransaction :=
  { toyCoinbase height 100000000 with nTime := nTime }

def stakedTx : CTransaction := forkCoinbase 1 1432700460

def stakedPos : CDiskTxPos := ⟨1, 1000, 1081⟩

def forkEnv : Env :=
  { toyEnv [(stakedTx, stakedPos)] with
    hash := forkHash
    hash9 := forkHash
    fTestNet := false }

def forkBlock (hashPrevBlock : Uint256) (nTime nNonce : UInt32) (vtx : List CTransaction) :
    CBlock where
  nVersion := 6
  hashPrevBlock := hashPrevBlock
  hashMerkleRoot := merkleRoot forkEnv vtx.length (vtx.map (getTxHash forkEnv))
  nTime := nTime
  nBits := 0x1f00ffff
  nNonce := nNonce
  vtx := vtx
  vchBlockSig := []

def forkGenesis : BlockRecord :=
  ⟨getHash forkEnv (forkBlock 0 1432700400 0 []), 1, 8, forkBlock 0 1432700400 0 []⟩

def forkNew (parent : CBlockIndex) (nBlockPos nTime nNonce : UInt32) : NewBlock :=
  ⟨1, nBlockPos, forkBlock (getBlockHash parent) nTime nNonce
    [forkCoinbase (nHeight parent + 1) nTime]⟩

def forkIndex (parent : CBlockIndex) (nBlockPos nTime nNonce : UInt32) : CBlockIndex :=
  .grow parent ⟨getHash forkEnv (forkNew parent nBlockPos nTime nNonce).block, 1, nBlockPos,
    (forkNew parent nBlockPos nTime nNonce).block⟩

def stakedIndex : CBlockIndex := forkIndex (.root forkGenesis) 1000 1432700460 1
def leftIndex : CBlockIndex := forkIndex stakedIndex 2000 1432702800 1
def leftTip : CBlockIndex := forkIndex leftIndex 3000 1432750400 0
def rightIndex : CBlockIndex := forkIndex stakedIndex 4000 1432702800 0
def rightTip : CBlockIndex := forkIndex rightIndex 5000 1432750400 0

def forkHeaders (nFile nBlockPos : UInt32) : Option CBlock :=
  if nFile = 1 ∧ nBlockPos = 1000 then some (blockOf stakedIndex) else none

def stakeTx : CTransaction :=
  { toyTx [⟨getTxHash forkEnv stakedTx, 0⟩] [⟨0, []⟩, pay 100000000] with
    nTime := 1432959660 }

def stakeBlock : CBlock :=
  { forkBlock (getBlockHash leftTip) 1432959660 0
      [{ forkCoinbase 4 1432959660 with vout := [⟨0, []⟩] }, stakeTx] with
    nBits := 0x1f0fffff }

def forkTree : List CBlockIndex :=
  [.root forkGenesis, stakedIndex, leftIndex, leftTip, rightIndex, rightTip]

def forkStake : StakeTable := fun pindex =>
  ⟨if pindex = rightTip then 4 else 0, pindex ∈ [.root forkGenesis, leftTip, rightTip],
    getBlockHash pindex⟩

def forkOps : BlockOps := coreOps forkEnv (fun _ => 1432960000) (fun _ => true)

def arrive (arrivals : List CBlockIndex) : Option ChainState :=
  arrivals.foldlM (fun node pindex =>
    (addToBlockIndex forkEnv forkOps node
      ⟨(value pindex).nFile, (value pindex).nBlockPos, blockOf pindex⟩).toOption.map Prod.snd)
    (genesisState forkGenesis [])

def indexOf (entries : List CBlockIndex) : AList (fun _ : Uint256 => CBlockIndex) :=
  entries.foldl (fun index pindex => index.insert (getBlockHash pindex) pindex) ∅

/-- A node whose active chain ends at `tip`, with the staked transaction in its index. -/
def forkState (tip : CBlockIndex) : ChainState :=
  { genesisState forkGenesis [] with
    ledger := { (genesisState forkGenesis []).ledger with
      txdb := updateTxIndex (genesisState forkGenesis []).ledger.txdb (getTxHash forkEnv stakedTx)
        (newTxIndex stakedPos 1)
      pnext := links tip }
    mapBlockIndex := indexOf forkTree
    pindexBest := tip }

theorem forkState_contains (onChain : stakedIndex ∈ path tip) :
    Contains forkEnv forkHeaders (forkState tip) stakeTx stakedIndex stakedPos where
  linked := rfl
  onChain := onChain
  indexed := by
    have found : (indexOf forkTree).lookup (getBlockHash stakedIndex) = some stakedIndex := by
      decide +kernel
    exact found
  header := by
    intro block read
    have same : blockOf stakedIndex = block := Option.some.inj read
    rw [← same]
    rfl
  placed := by
    intro txin first
    have same : stakeTx.vin.head? = some txin := first
    refine ⟨newTxIndex stakedPos 1, ?_, rfl⟩
    rw [readTxIndex_eq_txView]
    have key : txin.prevout.hash = getTxHash forkEnv stakedTx := by rw [← Option.some.inj same]
    have written : (forkState tip).ledger.txdb =
        updateTxIndex (genesisState forkGenesis []).ledger.txdb (getTxHash forkEnv stakedTx)
          (newTxIndex stakedPos 1) := rfl
    rw [written, txView_updateTxIndex, key, Function.update_self]

theorem forkHash_injective {kernel : StakeKernel} :
    Function.Injective (kernel.hashProof forkEnv) := by
  have shown : ∀ nStakeModifier : UInt64, (kernel.hashProof forkEnv nStakeModifier).toNat =
      nStakeModifier.toNat % 256 * 2 ^ 244 + nStakeModifier.toNat / 256 := by
    intro nStakeModifier
    have small := nStakeModifier.toNat_lt
    have front : (leBytes 8 nStakeModifier.toNat ++ writeUint32 kernel.nTimeBlockFrom ++
        writeUint32 kernel.nTxPrevOffset ++ writeUint32 kernel.nTimeTxPrev ++
        writeUint32 kernel.nPrevout ++ writeUint32 kernel.nTimeTx).take 8 =
          leBytes 8 nStakeModifier.toNat := by
      simp only [List.append_assoc]
      exact List.take_left' (leBytes_length 8 _)
    rw [StakeKernel.hashProof]
    change (forkHash _).toNat = _
    rw [forkHash, if_pos (by simp [writeUint32]), front, readBytes_leBytes _ small,
      BitVec.toNat_ofNat]
    omega
  intro first second same
  have values := congrArg BitVec.toNat same
  rw [shown, shown] at values
  have firstSmall := first.toNat_lt
  have secondSmall := second.toNat_lt
  apply UInt64.toNat_inj.mp
  omega

theorem kernel_check_differs_forkState :
    checkProofOfStake forkEnv forkHeaders forkStake (forkState leftTip) stakeTx stakeBlock.nBits ≠
      checkProofOfStake forkEnv forkHeaders forkStake (forkState rightTip) stakeTx
        stakeBlock.nBits := by
  have read : kernelAt forkEnv forkHeaders stakedPos stakeTx stakeBlock.nBits ≠ none := by
    decide +kernel
  have modifiers : kernelModifier forkEnv forkStake stakedIndex leftTip ≠
      kernelModifier forkEnv forkStake stakedIndex rightTip := by decide +kernel
  intro agree
  rcases (kernel_check_agrees_iff forkEnv forkHeaders forkStake (forkState leftTip)
      (forkState rightTip) stakeTx stakeBlock.nBits stakedIndex stakedPos
      (forkState_contains (by decide +kernel)) (forkState_contains (by decide +kernel))
      fun kernel _ => forkHash_injective).mp agree with missing | same
  · exact read missing
  · exact modifiers same

theorem forkStake_stores : ∀ pindex ∈ forkTree,
    Stores forkEnv forkStake (indexOf forkTree).lookup pindex := by
  have computed : ∀ pindex ∈ forkTree,
      computeNextStakeModifier forkEnv forkStake (indexOf forkTree).lookup (pprev pindex) =
        some ((forkStake pindex).nStakeModifier, (forkStake pindex).generated) := by
    decide +kernel
  intro pindex member
  exact ⟨computed pindex member, fun _ => rfl⟩

def forkTarget : Uint256 := BitVec.ofNat 256 (0xfffff * 2 ^ 224)

/-- A node that saw the left branch first accepts the kernel of a block on that branch; a
node with the same block tree that saw the right branch first does not. -/
theorem arrival_order_changes_verdict : ∃ first second,
    arrive [stakedIndex, leftIndex, leftTip, rightIndex, rightTip] = some first ∧
    arrive [stakedIndex, rightIndex, rightTip, leftIndex, leftTip] = some second ∧
    (∀ hash, first.mapBlockIndex.lookup hash = second.mapBlockIndex.lookup hash) ∧
    (∀ pindex ∈ forkTree, Stores forkEnv forkStake first.mapBlockIndex.lookup pindex) ∧
    first.pindexBest = leftTip ∧ second.pindexBest = rightTip ∧
    stakedIndex ∈ path leftTip ∧ stakedIndex ∈ path rightTip ∧
    isProofOfStake stakeBlock = true ∧ stakeBlock.vtx[1]? = some stakeTx ∧
    first.mapBlockIndex.lookup stakeBlock.hashPrevBlock = some leftTip ∧
    checkProofOfStake forkEnv forkHeaders forkStake first stakeTx stakeBlock.nBits =
      some ⟨true, some 0, some forkTarget⟩ ∧
    checkProofOfStake forkEnv forkHeaders forkStake second stakeTx stakeBlock.nBits =
      some ⟨false, some (BitVec.ofNat 256 (2 ^ 246)), some forkTarget⟩ := by
  have leftRun : ((arrive [stakedIndex, leftIndex, leftTip, rightIndex, rightTip]).map
      fun node => (node.pindexBest, node.mapBlockIndex.entries,
        checkProofOfStake forkEnv forkHeaders forkStake node stakeTx stakeBlock.nBits)) =
      some (leftTip, (indexOf forkTree).entries, some ⟨true, some 0, some forkTarget⟩) := by
    decide +kernel
  have rightRun : ((arrive [stakedIndex, rightIndex, rightTip, leftIndex, leftTip]).map
      fun node => (node.pindexBest, node.mapBlockIndex.entries,
        checkProofOfStake forkEnv forkHeaders forkStake node stakeTx stakeBlock.nBits)) =
      some (rightTip, (indexOf [.root forkGenesis, stakedIndex, rightIndex, rightTip, leftIndex,
        leftTip]).entries, some ⟨false, some (BitVec.ofNat 256 (2 ^ 246)), some forkTarget⟩) := by
    decide +kernel
  have sameTree : (indexOf forkTree).entries.Perm (indexOf [.root forkGenesis, stakedIndex,
      rightIndex, rightTip, leftIndex, leftTip]).entries := by decide +kernel
  have parentKnown : (indexOf forkTree).lookup stakeBlock.hashPrevBlock = some leftTip := by
    decide +kernel
  obtain ⟨first, firstRun, firstReport⟩ := Option.map_eq_some_iff.mp leftRun
  obtain ⟨second, secondRun, secondReport⟩ := Option.map_eq_some_iff.mp rightRun
  simp only [Prod.mk.injEq] at firstReport secondReport
  have firstIndex := AList.ext firstReport.2.1
  have secondIndex := AList.ext secondReport.2.1
  refine ⟨first, second, firstRun, secondRun, fun hash => ?_, ?_, firstReport.1, secondReport.1,
    by decide +kernel, by decide +kernel, by decide +kernel, rfl, ?_, firstReport.2.2,
    secondReport.2.2⟩
  · rw [firstIndex, secondIndex]
    exact AList.perm_lookup sameTree
  · rw [firstIndex]
    exact forkStake_stores
  · rw [firstIndex]
    exact parentKnown

end SynergyChain.Kernel
