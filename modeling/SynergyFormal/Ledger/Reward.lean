import SynergyFormal.Ledger.TxDB
import SynergyFormal.Lib.SignedWord
import Mathlib.Data.Nat.Sqrt

/-!
# Block rewards

The subsidy of a proof-of-work block and the reward of a coinstake: coin age,
the turbo multiplier and `GetProofOfStakeReward` (`main.cpp`).

The cache `mapTurboAddress` holds, for a proof-of-stake block, the address of its
coinstake; the model reads that address off the block.  The subsidy formula is a
`double` expression in the source; `getPoWSubsidy` is the integer expression that
has its value at every height up to `LAST_POW_BLOCK`.
-/

set_option autoImplicit false

namespace SynergyLedger.Reward

open SynergyData
open SynergyLib.SignedWord Transaction Block TxDB

/-! ## Proof of work -/

/-- `COIN * floor(4500 / sqrt(nHeight + 45) - 65.228)`. -/
def getPoWSubsidy (nHeight : Nat) : Int64 :=
  if nHeight ≤ lastPowBlock then
    Int64.ofInt (coin * ((Nat.sqrt (4500000 ^ 2 / (nHeight + 45)) - 65228) / 1000 : Nat))
  else 0

def getProofOfWorkReward (nHeight : Nat) (nFees : Int64) : Int64 := getPoWSubsidy nHeight + nFees

theorem getPoWSubsidy_range (nHeight : Nat) :
    0 ≤ (getPoWSubsidy nHeight).toInt ∧ (getPoWSubsidy nHeight).toInt ≤ 4500 * coin := by
  have unit : coin = 100000000 := rfl
  unfold getPoWSubsidy
  split_ifs
  · have root : Nat.sqrt (4500000 ^ 2 / (nHeight + 45)) ≤ 4500000 :=
      (Nat.sqrt_le_sqrt (Nat.div_le_self _ _)).trans (Nat.sqrt_eq' 4500000).le
    have whole : (Nat.sqrt (4500000 ^ 2 / (nHeight + 45)) - 65228) / 1000 ≤ 4500 := by omega
    rw [unit, toInt_ofInt ⟨by omega, by omega⟩]
    omega
  · decide

/-! ## Coin age -/

def maxCoinSeconds : Int := 8 * 24 * 60 * 60

/-- `CTransaction::ReadFromDisk(txdb, prevout, txindexRet)`. -/
def readPrevout (env : Env) (txdb : CTxDB) (prevout : COutPoint) :
    Option (CTxIndex × CTransaction × CTxOut) :=
  match readTxIndex txdb prevout.hash with
  | none => none
  | some txindex =>
    match env.readTx txindex.pos with
    | none => none
    | some txPrev => (txPrev.vout[prevout.n.toNat]?).map fun txout => (txindex, txPrev, txout)

def addCoinAge (env : Env) (txdb : CTxDB) (tx : CTransaction) (bnCentSecond : Int) (txin : CTxIn) :
    Option Int :=
  match readPrevout env txdb txin.prevout with
  | none => some bnCentSecond
  | some (txindex, txPrev, txout) =>
    if tx.nTime < txPrev.nTime then none
    else
      match env.readBlockTime txindex.pos.nFile txindex.pos.nBlockPos with
      | none => none
      | some blockTime =>
        if tx.nTime.toNat < blockTime.toNat + nStakeMinAge env then some bnCentSecond
        else
          let bnSeconds := min ((tx.nTime - txPrev.nTime).toNat : Int) maxCoinSeconds
          some (bnCentSecond + (txout.nValue.toInt * bnSeconds).tdiv cent)

def getCoinAge (env : Env) (txdb : CTxDB) (tx : CTransaction) : Option Nat :=
  if isCoinBase tx then some 0
  else (tx.vin.foldlM (addCoinAge env txdb tx) 0).map fun bnCentSecond =>
    ((bnCentSecond * cent).tdiv (24 * 60 * 60)).natAbs % 2 ^ 64

/-! ## The turbo multiplier -/

def nTurboEndTime : Int := 1432620187 + 30 * 24 * 60 * 60
def nTurboLookback : Int := 2 * 24 * 60 * 60
def nTurbo2Time : Int := 1433113200
def nSpacing2Time : Int := 1442210400
def nTargetSpacing : Int := 120
def nTargetSpacing2 : Int := 300
def maxTurboMultiplier : Int := 288
def maxTurboFractionInv : Int := 5

/-- The signing address of a proof-of-stake block, from `vtx[1].vout[1]`. -/
def stakeAddress (env : Env) (b : CBlock) : Option Destination :=
  (b.vtx[1]?).bind fun tx => (tx.vout[1]?).bind fun txout =>
    env.extractDestination txout.scriptPubKey

/-- The walk back over the lookback period.  An error is the value the source
returns from inside the loop, otherwise the counts are turbo blocks and blocks. -/
def turboWalk (env : Env) (address : Option Destination) (lookbackTime allowedSpacing : Int) :
    CBlockIndex → Int → Int → Int → Except Int (Int × Int)
  | .root _, turboCount, blockCount, _ => .ok (turboCount, blockCount)
  | .grow p record, turboCount, blockCount, timeLast =>
    if (record.block.nTime.toNat : Int) < lookbackTime then .ok (turboCount, blockCount)
    else if isProofOfStake record.block then
      match stakeAddress env record.block with
      | none => .error (-5)
      | some blockAddress =>
        if some blockAddress = address then
          if timeLast - record.block.nTime.toNat < allowedSpacing then .error 0
          else turboWalk env address lookbackTime allowedSpacing p (turboCount + 1)
            (blockCount + 1) record.block.nTime.toNat
        else turboWalk env address lookbackTime allowedSpacing p turboCount
          (blockCount + 1) timeLast
    else turboWalk env address lookbackTime allowedSpacing p turboCount (blockCount + 1) timeLast

def turboRatio (txTime turboCount blockCount : Int) : Int :=
  if blockCount.tdiv turboCount < maxTurboFractionInv then maxTurboMultiplier
  else
    let multiplier := (turboCount * maxTurboMultiplier * maxTurboFractionInv).tdiv blockCount
    if nTurbo2Time ≤ txTime ∧ 0 < turboCount ∧ multiplier = 0 then 1 else multiplier

def getTurboStakeMultiplier (env : Env) (address : Option Destination) (txTime : Int)
    (pindex : CBlockIndex) : Int :=
  if nTurboEndTime < txTime then 1
  else if (pprev pindex).isNone then -4
  else
    let spacing := if (nTime pindex : Int) < nSpacing2Time then nTargetSpacing else nTargetSpacing2
    match turboWalk env address (txTime - nTurboLookback) (spacing - 2) pindex 1 1 txTime with
    | .error result => result
    | .ok (turboCount, blockCount) => turboRatio txTime turboCount blockCount

/-! ## Proof of stake -/

def maxMintProofOfStake : Int := 10 * cent
def nPoSFixedRewardTime : Nat := 1437804000
def nPoSBigRewardTime : Nat := 1442210400
def nPoSTrueInflationSupply : Int := 9060000 * coin

def stakeSubsidy (nCoinAge : Int64) (nTimePrev : Nat) (nMoneySupplyPrev : Int64) : Int64 :=
  if nTimePrev < nPoSFixedRewardTime then
    nCoinAge / Int64.ofInt coin * Int64.ofInt (maxMintProofOfStake / 365)
  else if nTimePrev < nPoSBigRewardTime then Int64.ofInt coin
  else if nMoneySupplyPrev.toInt < nPoSTrueInflationSupply then Int64.ofInt (10 * coin)
  else nMoneySupplyPrev >>> 24

def getProofOfStakeReward (env : Env) (nCoinAge : Int64) (address : Option Destination)
    (txTime : Int) (pindexPrev : CBlockIndex) (nMoneySupplyPrev : Int64) : Int64 :=
  let nSubsidy := stakeSubsidy nCoinAge (nTime pindexPrev) nMoneySupplyPrev
  let nMultiplier := getTurboStakeMultiplier env address txTime pindexPrev
  if nMultiplier < 1 then 0
  else if 1 < nMultiplier then nSubsidy * Int64.ofInt nMultiplier
  else nSubsidy

end SynergyLedger.Reward
