import SynergyFormal.Primitives.CheckTransaction
import SynergyFormal.Lib.Tree

/-!
# Blocks and the block index

`CBlock` with its hash, Merkle root and context-free check, and `CBlockIndex`, whose
`pprev` pointer is modelled by the branch from the genesis block: two index entries
are one object exactly when they name the same path.  `Env` collects what the
modelled code calls but does not define: the hash functions, the block files and
the signature checks.  The block files are append-only, so they are one fixed
function; the clock, `GetAdjustedTime()`, is an argument of the calls that read it.
-/

set_option autoImplicit false

namespace SynergyData.Block

open SynergyLib.Wire SynergyLib.Tree Script Transaction CheckTransaction

structure CBlock where
  nVersion : Int32
  hashPrevBlock : Uint256
  hashMerkleRoot : Uint256
  nTime : UInt32
  nBits : UInt32
  nNonce : UInt32
  vtx : List CTransaction
  vchBlockSig : Bytes
  deriving DecidableEq

abbrev Destination := Bytes

structure Env where
  /-- `Hash`, double SHA-256. -/
  hash : Bytes → Uint256
  /-- `Hash9`, the X11 chain of hashes. -/
  hash9 : Bytes → Uint256
  fTestNet : Bool
  /-- `CTransaction::ReadFromDisk(pos)`. -/
  readTx : CDiskTxPos → Option CTransaction
  /-- `nTime` of the header `CBlock::ReadFromDisk(nFile, nBlockPos, false)` reads. -/
  readBlockTime : UInt32 → UInt32 → Option UInt32
  /-- `VerifySignature(txFrom, txTo, nIn, 0)`. -/
  verifySignature : CTransaction → CTransaction → Nat → Bool
  checkBlockSignature : CBlock → Bool
  extractDestination : CScript → Option Destination
  /-- `IsStandard`, and `AreInputsStandard` on the outputs the inputs spend. -/
  isStandard : CTransaction → Bool
  areInputsStandard : CTransaction → (CTxIn → Option CTxOut) → Bool
  /-- The scripts a wallet owns after `FindStealthTransactions(tx)`, from those it
  owned before. -/
  findStealthTransactions : CTransaction → (CScript → Bool) → CScript → Bool
  nMinimumInputValue : Int

def launchTime : Nat := 1432620000
def lastX11Time : Nat := launchTime + 10 * 24 * 60 * 60
def lastPowBlock : Nat := 4320

def nCoinbaseMaturity (env : Env) : Nat := if env.fTestNet then 5 else 120
def nStakeMinAge (env : Env) : Nat := if env.fTestNet then 5 * 60 else 60 * 60 * 24 * 2
def proofOfWorkLimit (env : Env) : Nat :=
  if env.fTestNet then 2 ^ (256 - 14) - 1 else 2 ^ (256 - 16) - 1

/-- The height of the last hardened checkpoint. -/
def getTotalBlocksEstimate (env : Env) : Int := if env.fTestNet then 0 else 87500

/-! ## Hashes -/

def getTxHash (env : Env) (tx : CTransaction) : Uint256 := env.hash (serialize tx)

/-- Distinct transactions of the known ones have distinct hashes. -/
def CollisionFree (env : Env) (Known : CTransaction → Prop) : Prop :=
  ∀ a b, Known a → Known b → getTxHash env a = getTxHash env b → serialize a = serialize b

variable {env : Env} {fCheckSig : Bool} {b : CBlock}

theorem CollisionFree.same_parts {Known : CTransaction → Prop} (distinct : CollisionFree env Known)
    {a b : CTransaction} (aKnown : Known a) (bKnown : Known b) (aFits : Addressable a)
    (bFits : Addressable b) (same : getTxHash env a = getTxHash env b) :
    a.vin = b.vin ∧ a.vout = b.vout := by
  obtain ⟨_, _, vins, vouts, _⟩ := serialize_inj aFits bFits (distinct a b aKnown bKnown same)
  exact ⟨vins, vouts⟩

def serializeHeader (b : CBlock) : Bytes :=
  leBytes 4 b.nVersion.toBitVec.toNat ++ writeUint256 b.hashPrevBlock ++
    writeUint256 b.hashMerkleRoot ++ writeUint32 b.nTime ++ writeUint32 b.nBits ++
    writeUint32 b.nNonce

def getHash (env : Env) (b : CBlock) : Uint256 :=
  if lastX11Time < b.nTime.toNat then env.hash (serializeHeader b)
  else env.hash9 (serializeHeader b)

def serializeBlock (b : CBlock) : Bytes :=
  serializeHeader b ++ serializeVector serialize b.vtx ++ byteString b.vchBlockSig

def hashPair (env : Env) (left right : Uint256) : Uint256 :=
  env.hash (writeUint256 left ++ writeUint256 right)

/-- One level of the Merkle tree; a last element without a partner is paired with
itself. -/
def merkleLevel (env : Env) : List Uint256 → List Uint256
  | [] => []
  | [last] => [hashPair env last last]
  | left :: right :: rest => hashPair env left right :: merkleLevel env rest

def merkleRoot (env : Env) : Nat → List Uint256 → Uint256
  | _, [] => 0
  | _, [top] => top
  | 0, _ :: _ :: _ => 0
  | fuel + 1, left :: right :: rest => merkleRoot env fuel (merkleLevel env (left :: right :: rest))

def buildMerkleTree (env : Env) (b : CBlock) : Uint256 :=
  merkleRoot env b.vtx.length (b.vtx.map (getTxHash env))

/-! ## Proof of work -/

/-- `CBigNum::SetCompact`: a sign-and-magnitude number whose three leading bytes are
given and whose length is the top byte. -/
def setCompact (nCompact : UInt32) : Int :=
  let nSize := nCompact.toNat / 2 ^ 24
  let word := nCompact.toNat % 2 ^ 24
  let magnitude := word % 2 ^ 23
  let scaled : Nat := if nSize ≤ 3 then magnitude / 2 ^ (8 * (3 - nSize))
    else magnitude * 2 ^ (8 * (nSize - 3))
  if 2 ^ 23 ≤ word ∧ 1 ≤ nSize then -(scaled : Int) else scaled

def checkProofOfWork (env : Env) (hash : Uint256) (nBits : UInt32) : Bool :=
  let bnTarget := setCompact nBits
  decide (0 < bnTarget) && decide (bnTarget ≤ proofOfWorkLimit env) &&
    decide ((hash.toNat : Int) ≤ bnTarget)

def getTrust (nBits : UInt32) : Nat :=
  let bnTarget := setCompact nBits
  if bnTarget ≤ 0 then 0 else 2 ^ 256 / (bnTarget.toNat + 1)

/-! ## The context-free block check -/

def isProofOfStake (b : CBlock) : Bool :=
  match b.vtx with
  | _ :: second :: _ => isCoinStake second
  | _ => false

def futureDrift (nTime : Int) : Int := nTime + 10 * 60

/-- The coinstake carries the block time. -/
def checkCoinStakeTimestamp (nTimeBlock nTimeTx : Int) : Bool := decide (nTimeBlock = nTimeTx)

def checkCoinBase (b : CBlock) : Bool :=
  match b.vtx with
  | [] => false
  | first :: rest =>
    isCoinBase first && rest.all (fun tx => !isCoinBase tx) &&
      decide ((b.nTime.toNat : Int) ≤ futureDrift first.nTime.toNat)

def checkStakeShape (env : Env) (b : CBlock) (fCheckSig : Bool) : Bool :=
  match b.vtx with
  | first :: second :: rest =>
    (match first.vout with
      | [out] => out.isEmpty
      | _ => false) &&
    isCoinStake second && rest.all (fun tx => !isCoinStake tx) &&
    checkCoinStakeTimestamp b.nTime.toNat second.nTime.toNat &&
    (!fCheckSig || env.checkBlockSignature b)
  | _ => false

def checkBlock (env : Env) (adjustedTime : Int) (b : CBlock)
    (fCheckPOW fCheckMerkleRoot fCheckSig : Bool) : Bool :=
  decide (b.vtx ≠ []) && decide (b.vtx.length ≤ maxBlockSize) &&
    decide ((serializeBlock b).length ≤ maxBlockSize) &&
    (!fCheckPOW || isProofOfStake b || checkProofOfWork env (getHash env b) b.nBits) &&
    decide ((b.nTime.toNat : Int) ≤ futureDrift adjustedTime) &&
    checkCoinBase b &&
    (!isProofOfStake b || checkStakeShape env b fCheckSig) &&
    b.vtx.all (fun tx => checkTransaction tx && decide (tx.nTime.toNat ≤ b.nTime.toNat)) &&
    decide (b.vtx.map (getTxHash env)).Nodup &&
    decide ((b.vtx.map getLegacySigOpCount).sum ≤ maxBlockSigOps) &&
    (!fCheckMerkleRoot || decide (b.hashMerkleRoot = buildMerkleTree env b))

/-- What a block that passed the check is known to satisfy. -/
structure CheckedBlock (env : Env) (b : CBlock) : Prop where
  nonempty : b.vtx ≠ []
  size : (serializeBlock b).length ≤ maxBlockSize
  coinbase : ∀ first rest, b.vtx = first :: rest →
    isCoinBase first = true ∧ ∀ tx ∈ rest, isCoinBase tx = false
  stake : isProofOfStake b = true → ∀ first second rest, b.vtx = first :: second :: rest →
    totalOut first.vout = 0 ∧ isCoinStake second = true ∧ ∀ tx ∈ rest, isCoinStake tx = false
  transactions : ∀ tx ∈ b.vtx, Checked tx
  distinct : (b.vtx.map (getTxHash env)).Nodup

theorem isEmpty_value {out : CTxOut} (empty : out.isEmpty = true) : out.nValue = 0 := by
  simp only [CTxOut.isEmpty, Bool.and_eq_true, beq_iff_eq] at empty
  exact empty.1

theorem checkStakeShape_spec (success : checkStakeShape env b fCheckSig = true)
    {first second : CTransaction} {rest : List CTransaction}
    (shape : b.vtx = first :: second :: rest) :
    totalOut first.vout = 0 ∧ isCoinStake second = true ∧ ∀ tx ∈ rest, isCoinStake tx = false := by
  simp only [checkStakeShape, shape, Bool.and_eq_true] at success
  obtain ⟨⟨⟨⟨empty, stake⟩, others⟩, _⟩, _⟩ := success
  refine ⟨?_, stake, fun tx member => ?_⟩
  · split at empty
    · rename_i out outputs
      simp [outputs, totalOut, isEmpty_value empty]
    · cases empty
  · simpa using List.all_eq_true.mp others tx member

theorem checkBlock_spec {adjustedTime : Int} {fCheckPOW fCheckMerkleRoot : Bool}
    (success : checkBlock env adjustedTime b fCheckPOW fCheckMerkleRoot fCheckSig = true) :
    CheckedBlock env b := by
  simp only [checkBlock, Bool.and_eq_true, Bool.or_eq_true, Bool.not_eq_true', decide_eq_true_eq]
    at success
  obtain ⟨⟨⟨⟨⟨⟨⟨⟨⟨⟨nonempty, _⟩, size⟩, _⟩, _⟩, coinbase⟩, stake⟩, transactions⟩, distinct⟩, _⟩, _⟩ :=
    success
  refine ⟨nonempty, size, ?_, ?_, ?_, distinct⟩
  · intro first rest shape
    simp only [checkCoinBase, shape, Bool.and_eq_true] at coinbase
    obtain ⟨⟨base, others⟩, _⟩ := coinbase
    exact ⟨base, fun tx member => by simpa using List.all_eq_true.mp others tx member⟩
  · intro proofOfStake first second rest shape
    have checked : checkStakeShape env b fCheckSig = true := by
      rcases stake with notStake | checked
      · rw [proofOfStake] at notStake; cases notStake
      · exact checked
    exact checkStakeShape_spec checked shape
  · intro tx member
    have both := List.all_eq_true.mp transactions tx member
    rw [Bool.and_eq_true] at both
    exact checkTransaction_spec both.1

theorem CheckedBlock.length_le (checked : CheckedBlock env b) :
    64 * b.vtx.length ≤ maxBlockSize := by
  have body : ∀ txs : List CTransaction, (∀ tx ∈ txs, Checked tx) →
      64 * txs.length ≤ (txs.flatMap serialize).length := by
    intro txs
    induction txs with
    | nil => intro _; simp
    | cons tx txs ih =>
      intro each
      have head := each tx List.mem_cons_self
      have bound := le_serializeSize tx
      have vin := List.length_pos_iff.mpr head.inputs
      have vout := List.length_pos_iff.mpr head.outputs
      have tail := ih fun other member => each other (List.mem_cons_of_mem _ member)
      simp only [serializeSize] at bound
      simp only [List.length_cons, List.flatMap_cons, List.length_append]
      omega
  have whole := body b.vtx checked.transactions
  have limit := checked.size
  simp only [serializeBlock, serializeVector, List.length_append] at limit
  omega

/-- The rule of `AcceptBlock` that the coinbase script starts with the height. -/
def checkCoinbaseHeight (nHeight : Nat) (b : CBlock) : Bool :=
  match b.vtx with
  | [] => false
  | first :: _ =>
    match first.vin with
    | [] => false
    | txin :: _ => (pushInt64 nHeight).isPrefixOf txin.scriptSig

/-! ## The block index -/

structure BlockRecord where
  phashBlock : Uint256
  nFile : UInt32
  nBlockPos : UInt32
  block : CBlock
  deriving DecidableEq

abbrev CBlockIndex := Branch BlockRecord

def pprev (pindex : CBlockIndex) : Option CBlockIndex := parent pindex
def nHeight (pindex : CBlockIndex) : Nat := depth pindex
def getBlockHash (pindex : CBlockIndex) : Uint256 := (value pindex).phashBlock
def blockOf (pindex : CBlockIndex) : CBlock := (value pindex).block
def nTime (pindex : CBlockIndex) : Nat := (blockOf pindex).nTime.toNat

/-- `nChainTrust`, a `uint256` sum. -/
def nChainTrust : CBlockIndex → Nat
  | .root record => getTrust record.block.nBits % 2 ^ 256
  | .grow p record => (nChainTrust p + getTrust record.block.nBits) % 2 ^ 256

end SynergyData.Block
