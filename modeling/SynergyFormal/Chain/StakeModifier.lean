import SynergyFormal.Chain.BestChain
import Mathlib.Data.List.Sort

/-!
# Stake modifiers

`ComputeNextStakeModifier` of `kernel.cpp`, with the selection of the blocks that give
the bits of a modifier.  The fields that `AddToBlockIndex` stores for it in an index
entry are a table beside the block tree, and `Stores` says that a table holds what
`AddToBlockIndex` would have stored.  The entropy bit of a block is the last bit of its
hash, so it is read off the entry.
-/

set_option autoImplicit false

namespace SynergyChain.StakeModifier

open SynergyData
open SynergyLib.Wire Transaction Block

structure StakeFields where
  nStakeModifier : UInt64
  /-- `GeneratedStakeModifier()`. -/
  generated : Bool
  hashProof : Uint256
  deriving DecidableEq

abbrev StakeTable := CBlockIndex → StakeFields

def nModifierInterval (env : Env) : Nat := if env.fTestNet then 120 else 20 * 60
def modifierIntervalRatio : Nat := 3

def getStakeEntropyBit (pindex : CBlockIndex) : Nat := (getBlockHash pindex).toNat % 2

/-- The last generated modifier and the time of its block. -/
def getLastStakeModifier (stake : StakeTable) : CBlockIndex → Option (UInt64 × Nat)
  | .root record =>
    if (stake (.root record)).generated then
      some ((stake (.root record)).nStakeModifier, record.block.nTime.toNat)
    else none
  | .grow p record =>
    if (stake (.grow p record)).generated then
      some ((stake (.grow p record)).nStakeModifier, record.block.nTime.toNat)
    else getLastStakeModifier stake p

def getStakeModifierSelectionIntervalSection (env : Env) (nSection : Nat) : Nat :=
  nModifierInterval env * 63 / (63 + (63 - nSection) * (modifierIntervalRatio - 1))

def getStakeModifierSelectionInterval (env : Env) : Nat :=
  ((List.range 64).map (getStakeModifierSelectionIntervalSection env)).sum

theorem selectionInterval_pos (env : Env) : 0 < getStakeModifierSelectionInterval env := by
  unfold getStakeModifierSelectionInterval getStakeModifierSelectionIntervalSection
    nModifierInterval
  cases env.fTestNet <;> decide

/-! ## Selection of blocks -/

/-- The proof hash with the last modifier; proof-of-stake blocks are favoured. -/
def hashSelection (env : Env) (stake : StakeTable) (nStakeModifierPrev : UInt64)
    (pindex : CBlockIndex) : Nat :=
  let hash := (env.hash (writeUint256 (stake pindex).hashProof ++
    leBytes 8 nStakeModifierPrev.toNat)).toNat
  if isProofOfStake (blockOf pindex) then hash / 2 ^ 32 else hash

/-- The better of the block chosen so far and the next candidate. -/
def better (env : Env) (stake : StakeTable) (nStakeModifierPrev : UInt64)
    (chosen : Option CBlockIndex) (pindex : CBlockIndex) : CBlockIndex :=
  match chosen with
  | none => pindex
  | some best =>
    if hashSelection env stake nStakeModifierPrev pindex <
        hashSelection env stake nStakeModifierPrev best then pindex
    else best

/-- The loop of `SelectBlockFromCandidates`.  It fails when a candidate is not indexed or
none is left; once a block is chosen, a candidate after the interval ends it. -/
def selectFrom (env : Env) (stake : StakeTable) (index : Uint256 → Option CBlockIndex)
    (selected : List Uint256) (nSelectionIntervalStop : Int) (nStakeModifierPrev : UInt64) :
    List (Nat × Uint256) → Option CBlockIndex → Option CBlockIndex
  | [], chosen => chosen
  | item :: rest, chosen =>
    match index item.2 with
    | none => none
    | some pindex =>
      if chosen.isSome ∧ nSelectionIntervalStop < nTime pindex then chosen
      else if getBlockHash pindex ∈ selected then
        selectFrom env stake index selected nSelectionIntervalStop nStakeModifierPrev rest
          chosen
      else
        selectFrom env stake index selected nSelectionIntervalStop nStakeModifierPrev rest
          (some (better env stake nStakeModifierPrev chosen pindex))

def selectBlockFromCandidates (env : Env) (stake : StakeTable)
    (index : Uint256 → Option CBlockIndex) (vSortedByTimestamp : List (Nat × Uint256))
    (mapSelectedBlocks : List Uint256) (nSelectionIntervalStop : Int)
    (nStakeModifierPrev : UInt64) : Option CBlockIndex :=
  selectFrom env stake index mapSelectedBlocks nSelectionIntervalStop nStakeModifierPrev
    vSortedByTimestamp none

/-- The blocks back from a block as long as they lie in the selection interval. -/
def candidates (nSelectionIntervalStart : Int) : CBlockIndex → List CBlockIndex
  | .root record =>
    if nSelectionIntervalStart ≤ record.block.nTime.toNat then [.root record] else []
  | .grow p record =>
    if nSelectionIntervalStart ≤ record.block.nTime.toNat then
      .grow p record :: candidates nSelectionIntervalStart p
    else []

def earlier (first second : Nat × Uint256) : Prop :=
  first.1 < second.1 ∨ first.1 = second.1 ∧ first.2.toNat ≤ second.2.toNat

instance : DecidableRel earlier := fun first second =>
  inferInstanceAs (Decidable (first.1 < second.1 ∨
    first.1 = second.1 ∧ first.2.toNat ≤ second.2.toNat))

def vSortedByTimestamp (nSelectionIntervalStart : Int) (pindexPrev : CBlockIndex) :
    List (Nat × Uint256) :=
  ((candidates nSelectionIntervalStart pindexPrev).reverse.map fun pindex =>
    (nTime pindex, getBlockHash pindex)).insertionSort earlier

/-- The rounds that are left; each adds a section to the interval and a bit to the
modifier. -/
def selectRounds (env : Env) (stake : StakeTable) (index : Uint256 → Option CBlockIndex)
    (sorted : List (Nat × Uint256)) (nStakeModifierPrev : UInt64) :
    Nat → Nat → Int → List Uint256 → UInt64 → Option UInt64
  | 0, _, _, _, nStakeModifierNew => some nStakeModifierNew
  | left + 1, nRound, stop, selected, nStakeModifierNew =>
    match selectBlockFromCandidates env stake index sorted selected
        (stop + getStakeModifierSelectionIntervalSection env nRound) nStakeModifierPrev with
    | none => none
    | some pindex =>
      selectRounds env stake index sorted nStakeModifierPrev left (nRound + 1)
        (stop + getStakeModifierSelectionIntervalSection env nRound)
        (getBlockHash pindex :: selected)
        (nStakeModifierNew ||| UInt64.ofNat (getStakeEntropyBit pindex) <<< UInt64.ofNat nRound)

def nSelectionIntervalStart (env : Env) (pindexPrev : CBlockIndex) : Int :=
  (nTime pindexPrev / nModifierInterval env * nModifierInterval env : Nat) -
    getStakeModifierSelectionInterval env

/-- The modifier and whether it is a new one. -/
def computeNextStakeModifier (env : Env) (stake : StakeTable)
    (index : Uint256 → Option CBlockIndex) : Option CBlockIndex → Option (UInt64 × Bool)
  | none => some (0, true)
  | some pindexPrev =>
    match getLastStakeModifier stake pindexPrev with
    | none => none
    | some (nStakeModifier, nModifierTime) =>
      if nTime pindexPrev / nModifierInterval env ≤ nModifierTime / nModifierInterval env then
        some (nStakeModifier, false)
      else
        let start := nSelectionIntervalStart env pindexPrev
        let sorted := vSortedByTimestamp start pindexPrev
        (selectRounds env stake index sorted nStakeModifier (min 64 sorted.length) 0 start []
          0).map fun nStakeModifierNew => (nStakeModifierNew, true)

/-- The table holds what `AddToBlockIndex` stored for an entry; the proof hash of a
proof-of-work block is its hash. -/
structure Stores (env : Env) (stake : StakeTable) (index : Uint256 → Option CBlockIndex)
    (pindex : CBlockIndex) : Prop where
  modifier : computeNextStakeModifier env stake index (pprev pindex) =
    some ((stake pindex).nStakeModifier, (stake pindex).generated)
  hashProof : isProofOfStake (blockOf pindex) = false →
    (stake pindex).hashProof = getBlockHash pindex

end SynergyChain.StakeModifier
