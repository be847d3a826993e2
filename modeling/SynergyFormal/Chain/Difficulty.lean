import SynergyFormal.Primitives.Compact
import SynergyFormal.Ledger.ConnectBlock
import Mathlib.Data.List.Sort

/-!
# Required and permitted difficulty

`GetNextTargetRequired` says which target a block has to have, `ComputeMinWork` and
`ComputeMinStake` which targets `ProcessBlock` lets through for a block that does not
extend the best block.  The second bound doubles the target at the checkpoint once and
once more per 96 minutes; the first follows the spacing of the last two blocks of a kind,
which may multiply the target at once.

A block of a chain with the required targets is let through exactly when its target has
not outgrown the doublings and the block is not dated before the switch of the
proof-of-stake limit while its parent is dated after it.

The rule itself is bounded, follows the spacing and is at rest at the spacing aimed at, and the
median of the last eleven times, the lower bound on a block's time, never falls along a chain.
-/

set_option autoImplicit false

namespace SynergyChain.Difficulty

open SynergyData SynergyLedger
open SynergyLib.Tree Block Compact Reward ConnectBlock

def proofOfStakeLimit (env : Env) : Nat :=
  if env.fTestNet then 2 ^ (256 - 8) - 1 else 2 ^ (256 - 12) - 1
def proofOfStakeLimitRevised : Nat := 2 ^ (256 - 2) - 1
def nPoSLimitSwitchTime : Nat := 1433055600
def nTargetTimespan : Int := 20 * 60

def proofOfStakeLimitUsed (env : Env) (nTime : Nat) : Nat :=
  if nPoSLimitSwitchTime ≤ nTime then proofOfStakeLimitRevised else proofOfStakeLimit env

def nTargetSpacingUsed (nTime : Nat) : Int :=
  if (nTime : Int) < nSpacing2Time then nTargetSpacing else nTargetSpacing2

/-- The limit on the targets of a kind of blocks at a time. -/
def targetLimit (env : Env) (fProofOfStake : Bool) (nTime : Nat) : Nat :=
  if fProofOfStake then proofOfStakeLimitUsed env nTime else proofOfWorkLimit env

theorem targetLimit_range (env : Env) (fProofOfStake : Bool) (nTime : Nat) :
    0 < targetLimit env fProofOfStake nTime ∧ targetLimit env fProofOfStake nTime < 2 ^ 256 := by
  unfold targetLimit proofOfStakeLimitUsed proofOfStakeLimitRevised proofOfStakeLimit
    proofOfWorkLimit
  split_ifs <;> decide

/-! ## The required target -/

def getLastBlockIndex (fProofOfStake : Bool) : CBlockIndex → CBlockIndex
  | .root record => .root record
  | .grow p record =>
    if isProofOfStake record.block = fProofOfStake then .grow p record
    else getLastBlockIndex fProofOfStake p

/-- The target after a block with target `nBits` that came `nActualSpacing` after the one
before. -/
def retarget (bnTargetLimit : Nat) (nTargetSpacing : Int) (nBits : UInt32) (nActualSpacing : Int) :
    Int :=
  let spacing := if nActualSpacing < 0 then nTargetSpacing else nActualSpacing
  let nInterval := nTargetTimespan.tdiv nTargetSpacing
  let bnNew := (setCompact nBits * ((nInterval - 1) * nTargetSpacing + spacing + spacing)).tdiv
    ((nInterval + 1) * nTargetSpacing)
  if bnNew ≤ 0 ∨ bnTargetLimit < bnNew then bnTargetLimit else bnNew

def getNextTargetRequired (env : Env) (pindexLast : CBlockIndex) (fProofOfStake : Bool) :
    UInt32 :=
  let bnTargetLimit := targetLimit env fProofOfStake (nTime pindexLast)
  let pindexPrev := getLastBlockIndex fProofOfStake pindexLast
  match pprev pindexPrev with
  | none => getCompact bnTargetLimit
  | some older =>
    let pindexPrevPrev := getLastBlockIndex fProofOfStake older
    match pprev pindexPrevPrev with
    | none => getCompact bnTargetLimit
    | some _ =>
      getCompact (retarget bnTargetLimit (nTargetSpacingUsed (nTime pindexLast))
        (blockOf pindexPrev).nBits ((nTime pindexPrev : Int) - nTime pindexPrevPrev))

/-! ## Timestamps -/

/-- The times of the last blocks, at most `span` of them. -/
def pastTimes : Nat → CBlockIndex → List Nat
  | 0, _ => []
  | _ + 1, .root record => [record.block.nTime.toNat]
  | span + 1, .grow p record => record.block.nTime.toNat :: pastTimes span p

def nMedianTimeSpan : Nat := 11

def getMedianTimePast (pindex : CBlockIndex) : Nat :=
  let sorted := (pastTimes nMedianTimeSpan pindex).insertionSort (· ≤ ·)
  sorted.getD (sorted.length / 2) 0

def getPastTimeLimit (pindex : CBlockIndex) : Nat := getMedianTimePast pindex

/-- The checks of `AcceptBlock` on the time of a block. -/
def checkBlockTime (pindexPrev : CBlockIndex) (b : CBlock) : Bool :=
  decide (getPastTimeLimit pindexPrev < b.nTime.toNat) &&
    decide ((nTime pindexPrev : Int) ≤ futureDrift b.nTime.toNat) &&
    decide (launchTime ≤ b.nTime.toNat)

/-- A chain whose blocks have the required target and an acceptable time. -/
def ValidChain (env : Env) : CBlockIndex → Prop
  | .root record => record.block.nBits = getCompact (proofOfWorkLimit env)
  | .grow p record => ValidChain env p ∧
      record.block.nBits = getNextTargetRequired env p (isProofOfStake record.block) ∧
      checkBlockTime p record.block = true

instance decidableValidChain (env : Env) : DecidablePred (ValidChain env)
  | .root record =>
    inferInstanceAs (Decidable (record.block.nBits = getCompact (proofOfWorkLimit env)))
  | .grow p record =>
    have := decidableValidChain env p
    inferInstanceAs (Decidable (ValidChain env p ∧
      record.block.nBits = getNextTargetRequired env p (isProofOfStake record.block) ∧
      checkBlockTime p record.block = true))

/-! ## The permitted target -/

/-- The loop of `ComputeMaxBits`. -/
def doubleTarget (bnTargetLimit : Int) : Nat → Int → Int → Option Int
  | 0, bnResult, nTime => if 0 < nTime ∧ bnResult < bnTargetLimit then none else some bnResult
  | fuel + 1, bnResult, nTime =>
    if 0 < nTime ∧ bnResult < bnTargetLimit then
      doubleTarget bnTargetLimit fuel (bnResult * 2) (nTime - 96 * 60)
    else some bnResult

def computeMaxBits (bnTargetLimit : Int) (nBase : UInt32) (nTime : Int) : Option UInt32 :=
  (doubleTarget bnTargetLimit nTime.toNat (setCompact nBase * 2) nTime).map fun bnResult =>
    getCompact (if bnTargetLimit < bnResult then bnTargetLimit else bnResult)

def computeMinWork (env : Env) (nBase : UInt32) (nTime : Int) : Option UInt32 :=
  computeMaxBits (proofOfWorkLimit env) nBase nTime

def computeMinStake (env : Env) (nBase : UInt32) (nTime : Int) (nBlockTime : UInt32) :
    Option UInt32 :=
  computeMaxBits (proofOfStakeLimitUsed env nBlockTime.toNat) nBase nTime

/-- The test of `ProcessBlock` for a block that does not extend the best block: whether the
peer that relayed it is penalised. -/
def tooLittle (env : Env) (pcheckpoint : CBlockIndex) (b : CBlock) : Option Bool :=
  let deltaTime := (b.nTime.toNat : Int) - nTime pcheckpoint
  (if isProofOfStake b then
      computeMinStake env (blockOf (getLastBlockIndex true pcheckpoint)).nBits deltaTime b.nTime
    else
      computeMinWork env (blockOf (getLastBlockIndex false pcheckpoint)).nBits deltaTime).map
    fun nRequired => decide (setCompact nRequired < setCompact b.nBits)

/-- The periods of 96 minutes begun in a time. -/
def periods (time : Int) : Nat := (time.toNat + (96 * 60 - 1)) / (96 * 60)

theorem doubleTarget_spec {bnTargetLimit : Int} : ∀ (fuel : Nat) (bnResult nTime : Int),
    0 < bnResult → nTime.toNat ≤ fuel → ∃ last,
      doubleTarget bnTargetLimit fuel bnResult nTime = some last ∧
        min last bnTargetLimit = min (2 ^ periods nTime * bnResult) bnTargetLimit := by
  intro fuel
  induction fuel with
  | zero =>
    intro bnResult nTime positive enough
    have none : periods nTime = 0 := by unfold periods; omega
    exact ⟨bnResult, by rw [doubleTarget, if_neg (by omega)], by simp [none]⟩
  | succ fuel ih =>
    intro bnResult nTime positive enough
    rw [doubleTarget]
    split_ifs with running
    · obtain ⟨last, ended, value⟩ :=
        ih (bnResult * 2) (nTime - 96 * 60) (by omega) (by omega)
      have count : periods nTime = periods (nTime - 96 * 60) + 1 := by unfold periods; omega
      refine ⟨last, ended, ?_⟩
      rw [value, count, pow_succ]
      congr 1
      ring
    · refine ⟨bnResult, rfl, ?_⟩
      rcases not_and_or.mp running with ended | full
      · have none : periods nTime = 0 := by unfold periods; omega
        simp [none]
      · have grown : bnResult ≤ 2 ^ periods nTime * bnResult :=
          le_mul_of_one_le_left positive.le (one_le_pow₀ (by norm_num))
        rw [min_eq_right (by omega), min_eq_right (by omega)]

theorem computeMaxBits_spec {bnTargetLimit : Nat} {nBase : UInt32} (nTime : Int)
    (limited : 0 < bnTargetLimit) (positive : 0 < setCompact nBase) :
    ∃ required : Nat, 0 < required ∧ required ≤ bnTargetLimit ∧
      (required : Int) = min (2 ^ (periods nTime + 1) * setCompact nBase) bnTargetLimit ∧
      computeMaxBits bnTargetLimit nBase nTime = some (getCompact required) := by
  obtain ⟨last, ended, value⟩ := doubleTarget_spec nTime.toNat (setCompact nBase * 2) nTime
    (by omega) (le_refl _)
  have capped : (if (bnTargetLimit : Int) < last then (bnTargetLimit : Int) else last) =
      min (2 ^ (periods nTime + 1) * setCompact nBase) bnTargetLimit := by
    have doubled : (2 : Int) ^ (periods nTime + 1) * setCompact nBase =
        2 ^ periods nTime * (setCompact nBase * 2) := by rw [pow_succ]; ring
    rw [doubled, ← value]
    split_ifs <;> omega
  have grown : 0 < 2 ^ (periods nTime + 1) * setCompact nBase := by positivity
  refine ⟨(min (2 ^ (periods nTime + 1) * setCompact nBase) bnTargetLimit).toNat, by omega,
    by omega, by omega, ?_⟩
  rw [computeMaxBits, ended, Option.map_some, capped, Int.toNat_of_nonneg (by omega)]

/-! ## Chains with the required targets -/

/-- A positive target up to a limit, as `GetCompact` writes it. -/
def Canonical (bnTargetLimit : Nat) (nBits : UInt32) : Prop :=
  ∃ n : Nat, 0 < n ∧ n ≤ bnTargetLimit ∧ nBits = getCompact n

section Canonical
variable {bnTargetLimit : Nat} {nBits : UInt32}

section Canonical
variable (fits : bnTargetLimit < 2 ^ 256) (canonical : Canonical bnTargetLimit nBits)
include fits canonical

theorem Canonical.positive : 0 < setCompact nBits := by
  obtain ⟨n, positive, limited, rfl⟩ := canonical
  rw [setCompact_getCompact (by omega)]
  exact_mod_cast truncate_pos positive

theorem Canonical.le_limit : setCompact nBits ≤ bnTargetLimit := by
  obtain ⟨n, _, limited, rfl⟩ := canonical
  rw [setCompact_getCompact (by omega)]
  exact_mod_cast (compactGrid.truncate_le n).trans limited

theorem Canonical.le_iff {required : Nat} (small : required < 2 ^ 256) :
    setCompact nBits ≤ setCompact (getCompact required) ↔ setCompact nBits ≤ required := by
  obtain ⟨n, _, limited, rfl⟩ := canonical
  rw [setCompact_getCompact (by omega), setCompact_getCompact small]
  exact_mod_cast compactGrid.truncate_le_truncate_iff n required

end Canonical

theorem canonical_retarget (limited : 0 < bnTargetLimit) {spacing : Int} {nActualSpacing : Int} :
    Canonical bnTargetLimit (getCompact (retarget bnTargetLimit spacing nBits nActualSpacing)) := by
  have range : 0 < retarget bnTargetLimit spacing nBits nActualSpacing ∧
      retarget bnTargetLimit spacing nBits nActualSpacing ≤ bnTargetLimit := by
    unfold retarget
    dsimp only
    split_ifs <;> omega
  refine ⟨_, Int.lt_toNat.mpr range.1, ?_, by rw [Int.toNat_of_nonneg range.1.le]⟩
  omega

end Canonical

theorem canonical_required (env : Env) (pindexLast : CBlockIndex) (fProofOfStake : Bool) :
    Canonical (targetLimit env fProofOfStake (nTime pindexLast))
      (getNextTargetRequired env pindexLast fProofOfStake) := by
  have range := targetLimit_range env fProofOfStake (nTime pindexLast)
  unfold getNextTargetRequired
  dsimp only
  split
  · exact ⟨_, range.1, le_refl _, rfl⟩
  · split
    · exact ⟨_, range.1, le_refl _, rfl⟩
    · exact canonical_retarget range.1

variable {env : Env} {pindex : CBlockIndex}

theorem ValidChain.positive (valid : ValidChain env pindex) :
    0 < setCompact (blockOf pindex).nBits := by
  cases pindex with
  | root record =>
    have range := targetLimit_range env false 0
    have own : Canonical (targetLimit env false 0) record.block.nBits :=
      ⟨_, range.1, le_refl _, valid⟩
    exact own.positive range.2
  | grow p record =>
    have required := canonical_required env p (isProofOfStake record.block)
    rw [← valid.2.1] at required
    exact required.positive (targetLimit_range env _ _).2

theorem ValidChain.ancestor (valid : ValidChain env pindex) {older : CBlockIndex}
    (member : older ∈ path pindex) : ValidChain env older := by
  induction pindex, member using path_induction with
  | base => exact valid
  | step p record below ih => exact ih valid.1

theorem getLastBlockIndex_mem (fProofOfStake : Bool) (pindex : CBlockIndex) :
    getLastBlockIndex fProofOfStake pindex ∈ path pindex := by
  induction pindex with
  | root record => exact self_mem_path _
  | grow p record ih =>
    rw [getLastBlockIndex]
    split_ifs
    · exact self_mem_path _
    · exact mem_path_grow.mpr (Or.inl ih)

theorem tooLittle_eq (env : Env) (pcheckpoint : CBlockIndex) (b : CBlock) :
    tooLittle env pcheckpoint b = (computeMaxBits (targetLimit env (isProofOfStake b) b.nTime.toNat)
        (blockOf (getLastBlockIndex (isProofOfStake b) pcheckpoint)).nBits
        ((b.nTime.toNat : Int) - nTime pcheckpoint)).map
      fun nRequired => decide (setCompact nRequired < setCompact b.nBits) := by
  unfold tooLittle targetLimit computeMinStake computeMinWork
  cases isProofOfStake b <;> rfl

/-- A proof-of-stake block above the old limit whose own time is before the change of the
limit, on a block whose time is after it. -/
def BeforeSwitch (env : Env) (pindexPrev : CBlockIndex) (b : CBlock) : Prop :=
  isProofOfStake b = true ∧ b.nTime.toNat < nPoSLimitSwitchTime ∧
    nPoSLimitSwitchTime ≤ nTime pindexPrev ∧ proofOfStakeLimit env < setCompact b.nBits

/-- The required target meets the limit of the block's own time, except across the switch. -/
theorem le_limit_iff {pindexPrev : CBlockIndex} {b : CBlock}
    (required : b.nBits = getNextTargetRequired env pindexPrev (isProofOfStake b)) :
    setCompact b.nBits ≤ targetLimit env (isProofOfStake b) b.nTime.toNat ↔
      ¬BeforeSwitch env pindexPrev b := by
  have canonical := canonical_required env pindexPrev (isProofOfStake b)
  rw [← required] at canonical
  have limited := canonical.le_limit (targetLimit_range env _ _).2
  have revised : proofOfStakeLimit env ≤ proofOfStakeLimitRevised := by
    unfold proofOfStakeLimit
    cases env.fTestNet <;> decide
  unfold BeforeSwitch
  unfold targetLimit proofOfStakeLimitUsed at limited ⊢
  cases kind : isProofOfStake b with
  | false =>
    rw [kind] at limited
    simpa using limited
  | true =>
    rw [kind] at limited
    simp only [if_true, true_and] at limited ⊢
    split_ifs at limited ⊢ <;> omega

/-- The target has grown since the checkpoint by more than one doubling and one more for
each period begun. -/
def Outgrown (pcheckpoint : CBlockIndex) (b : CBlock) : Prop :=
  2 ^ (periods ((b.nTime.toNat : Int) - nTime pcheckpoint) + 1) *
      setCompact (blockOf (getLastBlockIndex (isProofOfStake b) pcheckpoint)).nBits <
    setCompact b.nBits

/-- On a chain with the required targets a peer is not penalised for a block above the
checkpoint exactly when the block is not on the wrong side of the switch of the limit and
its target has not outgrown the one at the checkpoint. -/
theorem not_tooLittle_iff (env : Env) (p pcheckpoint : CBlockIndex) (record : BlockRecord)
    (valid : ValidChain env (.grow p record)) (onChain : pcheckpoint ∈ path p) :
    tooLittle env pcheckpoint record.block = some false ↔
      ¬BeforeSwitch env p record.block ∧ ¬Outgrown pcheckpoint record.block := by
  have range := targetLimit_range env (isProofOfStake record.block) record.block.nTime.toNat
  have base := ((valid.1.ancestor onChain).ancestor
    (getLastBlockIndex_mem (isProofOfStake record.block) pcheckpoint)).positive
  have canonical := canonical_required env p (isProofOfStake record.block)
  rw [← valid.2.1] at canonical
  obtain ⟨required, _, limited, value, computed⟩ :=
    computeMaxBits_spec ((record.block.nTime.toNat : Int) - nTime pcheckpoint) range.1 base
  rw [tooLittle_eq, computed, Option.map_some, Option.some.injEq, decide_eq_false_iff_not, not_lt,
    canonical.le_iff (targetLimit_range env _ _).2 (lt_of_le_of_lt limited range.2), value,
    le_min_iff, le_limit_iff valid.2.1, Outgrown, not_lt]
  exact and_comm

/-! ## A slow block after fast ones -/

def slowEnv : Env := { toyEnv [] with fTestNet := false }

def slowGenesis : CBlockIndex :=
  .root ⟨0, 1, 8, { toyBlock 0 [] with
    nTime := 1432620000
    nBits := getCompact (proofOfWorkLimit slowEnv) }⟩

/-- A proof-of-work block with the required target on top of a chain. -/
def mineAt (pindexPrev : CBlockIndex) (nTime : UInt32) : CBlockIndex :=
  .grow pindexPrev ⟨nHeight pindexPrev + 1, 1, UInt32.ofNat (1000 * (nHeight pindexPrev + 1)),
    { toyBlock (getBlockHash pindexPrev) [] with
      nTime := nTime
      nBits := getNextTargetRequired slowEnv pindexPrev false }⟩

/-- Blocks one second apart. -/
def fastChain : Nat → CBlockIndex
  | 0 => slowGenesis
  | height + 1 => mineAt (fastChain height) (UInt32.ofNat (1432620000 + height + 1))

def slowChain : CBlockIndex := mineAt (mineAt (fastChain 12) 1432625012) 1432625013

theorem fastChain_let_through :
    ValidChain slowEnv (fastChain 3) ∧ fastChain 1 ∈ path (fastChain 2) ∧
      tooLittle slowEnv (fastChain 1) (blockOf (fastChain 3)) = some false := by
  have valid : ValidChain slowEnv (fastChain 3) := by decide +kernel
  have onChain : fastChain 1 ∈ path (fastChain 2) := by decide +kernel
  refine ⟨valid, onChain,
    (not_tooLittle_iff slowEnv (fastChain 2) (fastChain 1) _ valid onChain).mpr ?_⟩
  unfold BeforeSwitch Outgrown
  decide +kernel

/-- Twelve blocks at one second, then one after 5000 seconds: the block after that has
almost seven times the target of the twelfth, and the bound is four times. -/
theorem slowChain_penalised :
    ValidChain slowEnv slowChain ∧ fastChain 12 ∈ path slowChain ∧
      tooLittle slowEnv (fastChain 12) (blockOf slowChain) = some true := by
  decide +kernel

/-! ## Median times -/

/-- The entry at an index of a sorted list is at least a bound exactly when no more entries than
the index are below it. -/
theorem le_sorted_iff {sorted : List Nat} (ordered : sorted.Pairwise (· ≤ ·)) {index : Nat}
    (inside : index < sorted.length) (bound : Nat) :
    bound ≤ sorted.getD index 0 ↔ sorted.countP (· < bound) ≤ index := by
  induction sorted generalizing index with
  | nil => exact absurd inside (Nat.not_lt_zero _)
  | cons first rest ih =>
    obtain ⟨least, ordered⟩ := List.pairwise_cons.mp ordered
    have above (high : bound ≤ first) : rest.countP (· < bound) = 0 :=
      List.countP_eq_zero.mpr fun entry member => by simpa using high.trans (least entry member)
    rw [List.countP_cons]
    cases index with
    | zero =>
      by_cases high : bound ≤ first
      · simp [above high, high]
      · simp [high, not_le.mp high]
    | succ index =>
      rw [List.getD_cons_succ, ih ordered (by simpa using inside)]
      by_cases high : bound ≤ first
      · simp [above high, not_lt.mpr high]
      · simp [not_le.mp high]

theorem pastTimes_take (span : Nat) (pindex : CBlockIndex) :
    (pastTimes (span + 1) pindex).take span = pastTimes span pindex := by
  induction span generalizing pindex with
  | zero => rfl
  | succ span ih =>
    cases pindex with
    | root record => simp [pastTimes]
    | grow p record => rw [pastTimes, List.take_succ_cons, ih, pastTimes]

theorem pastTimes_length (pindex : CBlockIndex) (span : Nat) :
    0 < (pastTimes (span + 1) pindex).length ∧ (pastTimes span pindex).length ≤ span := by
  induction span generalizing pindex with
  | zero => cases pindex <;> simp [pastTimes]
  | succ span ih =>
    cases pindex with
    | root record => simp [pastTimes]
    | grow p record => simpa [pastTimes] using (ih p).2

theorem le_median_iff (pindex : CBlockIndex) (bound : Nat) : bound ≤ getMedianTimePast pindex ↔
      (pastTimes nMedianTimeSpan pindex).countP (· < bound) ≤
        (pastTimes nMedianTimeSpan pindex).length / 2 := by
  have some := (pastTimes_length pindex 10).1
  have sorts := (pastTimes nMedianTimeSpan pindex).perm_insertionSort (· ≤ ·)
  unfold getMedianTimePast
  rw [le_sorted_iff (List.pairwise_insertionSort (· ≤ ·) _), sorts.countP_eq, sorts.length_eq]
  rw [sorts.length_eq]
  exact Nat.div_lt_self some (by decide)

/-- The window gains a time above the median and loses at most its oldest one. -/
theorem median_step {p : CBlockIndex} {record : BlockRecord}
    (later : getMedianTimePast p < record.block.nTime.toNat) :
    getMedianTimePast p ≤ getMedianTimePast (.grow p record) := by
  have before := (le_median_iff p _).mp le_rfl
  have window : pastTimes nMedianTimeSpan (.grow p record) =
      record.block.nTime.toNat :: (pastTimes nMedianTimeSpan p).take 10 := by
    rw [nMedianTimeSpan, pastTimes_take]
    rfl
  have fewer := ((pastTimes nMedianTimeSpan p).take_sublist 10).countP_le
    (p := (· < getMedianTimePast p))
  have length := (pastTimes_length p nMedianTimeSpan).2
  rw [le_median_iff, window, List.countP_cons_of_neg (by simpa using later.le), List.length_cons,
    List.length_take]
  unfold nMedianTimeSpan at length fewer before ⊢
  omega

/-- Every block is later than the limit its parent sets, as `AcceptBlock` requires. -/
def AfterLimits : CBlockIndex → Prop
  | .root _ => True
  | .grow p record => AfterLimits p ∧ getPastTimeLimit p < record.block.nTime.toNat

theorem AfterLimits.ancestor {older : CBlockIndex} (rising : AfterLimits pindex)
    (member : older ∈ path pindex) : AfterLimits older := by
  induction pindex, member using path_induction with
  | base => exact rising
  | step p record below ih => exact ih rising.1

theorem AfterLimits.median_le {older : CBlockIndex} (rising : AfterLimits pindex)
    (member : older ∈ path pindex) : getMedianTimePast older ≤ getMedianTimePast pindex := by
  induction pindex, member using path_induction with
  | base => exact le_refl _
  | step p record below ih => exact (ih rising.1).trans (median_step rising.2)

/-- The median time never goes back along a chain, and a block is later than the median times of
all blocks below it. -/
theorem median_time_rises (pindex : CBlockIndex) (rising : AfterLimits pindex) (p : CBlockIndex)
    (record : BlockRecord) (member : .grow p record ∈ path pindex) :
    getMedianTimePast p ≤ getMedianTimePast (.grow p record) ∧
      ∀ ancestor ∈ path p, getMedianTimePast ancestor < record.block.nTime.toNat := by
  obtain ⟨below, later⟩ := rising.ancestor member
  refine ⟨median_step later, fun ancestor older => ?_⟩
  exact lt_of_le_of_lt (below.median_le older) later

theorem median_time_rises_fast :
    getMedianTimePast (fastChain 1) ≤ getMedianTimePast (fastChain 2) ∧
      ∀ ancestor ∈ path (fastChain 1),
        getMedianTimePast ancestor < (blockOf (fastChain 2)).nTime.toNat := by
  have rising : AfterLimits (fastChain 2) :=
    ⟨⟨trivial, by decide +kernel⟩, by decide +kernel⟩
  exact median_time_rises (fastChain 2) rising (fastChain 1) _ (self_mem_path _)

/-! ## Retargeting -/

/-- The blocks of a kind above the genesis block, the last one first. -/
def blocksOfKind (fProofOfStake : Bool) : CBlockIndex → List CBlockIndex
  | .root _ => []
  | .grow p record =>
    if isProofOfStake record.block = fProofOfStake then
      .grow p record :: blocksOfKind fProofOfStake p
    else blocksOfKind fProofOfStake p

theorem getLastBlockIndex_of_blocksOfKind {fProofOfStake : Bool} {last : CBlockIndex}
    {rest : List CBlockIndex} (blocks : blocksOfKind fProofOfStake pindex = last :: rest) :
    getLastBlockIndex fProofOfStake pindex = last ∧
      ∃ older, pprev last = some older ∧ blocksOfKind fProofOfStake older = rest := by
  induction pindex with
  | root record => exact absurd blocks (List.cons_ne_nil _ _).symm
  | grow p record ih =>
    rw [blocksOfKind] at blocks
    rw [getLastBlockIndex]
    split at blocks
    case isTrue own =>
      obtain ⟨rfl, rfl⟩ := List.cons.inj blocks
      rw [if_pos own]
      exact ⟨rfl, p, rfl, rfl⟩
    case isFalse other =>
      rw [if_neg other]
      exact ih blocks

theorem getNextTargetRequired_of_blocksOfKind (env : Env) {fProofOfStake : Bool}
    {pindexLast pindexPrev pindexPrevPrev : CBlockIndex} {rest : List CBlockIndex}
    (blocks : blocksOfKind fProofOfStake pindexLast = pindexPrev :: pindexPrevPrev :: rest) :
    getNextTargetRequired env pindexLast fProofOfStake =
      getCompact (retarget (targetLimit env fProofOfStake (nTime pindexLast))
        (nTargetSpacingUsed (nTime pindexLast)) (blockOf pindexPrev).nBits
        ((nTime pindexPrev : Int) - nTime pindexPrevPrev)) := by
  obtain ⟨last, older, below, blocks⟩ := getLastBlockIndex_of_blocksOfKind blocks
  obtain ⟨lastBelow, oldest, belowOlder, _⟩ := getLastBlockIndex_of_blocksOfKind blocks
  unfold getNextTargetRequired
  dsimp only
  rw [last, below]
  dsimp only
  rw [lastBelow, belowOlder]

theorem setCompact_getCompact_mono {a b : Int} (nonneg : 0 ≤ a) (le : a ≤ b) (fits : b < 2 ^ 256) :
    setCompact (getCompact a) ≤ setCompact (getCompact b) := by
  lift a to Nat using nonneg
  lift b to Nat using by omega
  rw [setCompact_getCompact (by omega), setCompact_getCompact (by omega)]
  exact_mod_cast compactGrid.truncate_mono (by omega)

section Retarget
variable {target : Nat} {nTargetSpacing : Int} {nBits : UInt32}

/-- A target scaled by the spacing, before it is limited and rounded. -/
def scaled (target : Nat) (nTargetSpacing nActualSpacing : Int) : Int :=
  target * ((nTargetTimespan / nTargetSpacing - 1) * nTargetSpacing + 2 * nActualSpacing) /
    ((nTargetTimespan / nTargetSpacing + 1) * nTargetSpacing)

/-- What the proofs use of the two target spacings. -/
structure Interval (nTargetSpacing : Int) : Prop where
  positive : 0 < nTargetSpacing
  exact : nTargetTimespan.tdiv nTargetSpacing = nTargetTimespan / nTargetSpacing
  three : 3 ≤ nTargetTimespan / nTargetSpacing

theorem interval_used (nTime : Nat) : Interval (nTargetSpacingUsed nTime) := by
  unfold nTargetSpacingUsed
  split <;> exact ⟨by decide, by decide, by decide⟩

variable (interval : Interval nTargetSpacing)
include interval

theorem Interval.total_pos : 0 < (nTargetTimespan / nTargetSpacing + 1) * nTargetSpacing :=
  mul_pos (by have := interval.three; omega) interval.positive

theorem scaled_mono (target : Nat) {a b : Int} (le : a ≤ b) :
    scaled target nTargetSpacing a ≤ scaled target nTargetSpacing b := by
  refine Int.ediv_le_ediv interval.total_pos (mul_le_mul_of_nonneg_left ?_ (by omega))
  omega

theorem scaled_zero : scaled target nTargetSpacing 0 =
    target * (nTargetTimespan / nTargetSpacing - 1) / (nTargetTimespan / nTargetSpacing + 1) := by
  rw [scaled, mul_zero, add_zero, ← mul_assoc, Int.mul_ediv_mul_of_pos_left _ _ interval.positive]

theorem scaled_self : scaled target nTargetSpacing nTargetSpacing = target := by
  have whole : (nTargetTimespan / nTargetSpacing - 1) * nTargetSpacing + 2 * nTargetSpacing =
      (nTargetTimespan / nTargetSpacing + 1) * nTargetSpacing := by ring
  rw [scaled, whole, Int.mul_ediv_cancel _ interval.total_pos.ne']

theorem scaled_pos (two : 2 ≤ target) {nActualSpacing : Int} (nonneg : 0 ≤ nActualSpacing) :
    0 < scaled target nTargetSpacing nActualSpacing := by
  have three := interval.three
  refine lt_of_lt_of_le ?_ (scaled_mono interval target nonneg)
  rw [scaled_zero interval]
  refine Int.le_ediv_of_mul_le (by omega) ?_
  calc (0 + 1) * (nTargetTimespan / nTargetSpacing + 1)
      ≤ 2 * (nTargetTimespan / nTargetSpacing - 1) := by omega
    _ ≤ target * (nTargetTimespan / nTargetSpacing - 1) :=
        mul_le_mul_of_nonneg_right (by omega) (by omega)

theorem retarget_eq (bnTargetLimit : Nat) (value : setCompact nBits = target) (two : 2 ≤ target)
    (nActualSpacing : Int) :
    ∃ used, 0 ≤ used ∧ (0 ≤ nActualSpacing → used = nActualSpacing) ∧
      (nActualSpacing < 0 → used = nTargetSpacing) ∧
      retarget bnTargetLimit nTargetSpacing nBits nActualSpacing =
        min (scaled target nTargetSpacing used) bnTargetLimit := by
  have three := interval.three
  have spacing := interval.positive
  refine ⟨if nActualSpacing < 0 then nTargetSpacing else nActualSpacing, ?_, ?_, ?_, ?_⟩
  · split <;> omega
  · exact fun nonneg => if_neg (by omega)
  · exact fun backwards => if_pos backwards
  · unfold retarget
    dsimp only
    generalize used : (if nActualSpacing < 0 then nTargetSpacing else nActualSpacing) = nSpacing
    have nonneg : 0 ≤ nSpacing := by
      rw [← used]
      split <;> omega
    have positive := scaled_pos interval two nonneg
    have product : 0 ≤ (target : Int) *
        ((nTargetTimespan / nTargetSpacing - 1) * nTargetSpacing + 2 * nSpacing) :=
      mul_nonneg (by omega) (add_nonneg (mul_nonneg (by omega) spacing.le) (by omega))
    rw [value, interval.exact, add_assoc, ← two_mul, Int.tdiv_eq_ediv_of_nonneg product, ← scaled]
    split_ifs <;> omega

end Retarget

/-- Retargeting stays between zero and the limit, follows the last spacing upwards, keeps the target
where the spacing is the one aimed at, and lowers it by no more than the interval allows. -/
theorem retargeting_bounded_monotone_stable (env : Env) (fProofOfStake : Bool)
    (pindexLast pindexPrev pindexPrevPrev : CBlockIndex) (rest : List CBlockIndex)
    (blocks : blocksOfKind fProofOfStake pindexLast = pindexPrev :: pindexPrevPrev :: rest)
    (target : Nat) (value : setCompact (blockOf pindexPrev).nBits = target)
    (canonical : (blockOf pindexPrev).nBits = getCompact target) (two : 2 ≤ target)
    (limited : target ≤ targetLimit env fProofOfStake (nTime pindexLast)) :
    let spacing := nTargetSpacingUsed (nTime pindexLast)
    let nInterval := nTargetTimespan / spacing
    let nActualSpacing := (nTime pindexPrev : Int) - nTime pindexPrevPrev
    let nNew := getNextTargetRequired env pindexLast fProofOfStake
    (0 < setCompact nNew ∧
      setCompact nNew ≤ targetLimit env fProofOfStake (nTime pindexLast)) ∧
    (∀ otherLast otherPrev otherPrevPrev otherRest,
      blocksOfKind fProofOfStake otherLast = otherPrev :: otherPrevPrev :: otherRest →
      setCompact (blockOf otherPrev).nBits = target →
      targetLimit env fProofOfStake (nTime otherLast) =
        targetLimit env fProofOfStake (nTime pindexLast) →
      nTargetSpacingUsed (nTime otherLast) = spacing →
      0 ≤ nActualSpacing → nActualSpacing ≤ (nTime otherPrev : Int) - nTime otherPrevPrev →
      setCompact nNew ≤ setCompact (getNextTargetRequired env otherLast fProofOfStake)) ∧
    (nActualSpacing = spacing ∨ nActualSpacing < 0 → nNew = (blockOf pindexPrev).nBits) ∧
    setCompact (getCompact (target * (nInterval - 1) / (nInterval + 1))) ≤ setCompact nNew := by
  intro spacing nInterval nActualSpacing nNew
  set limit := targetLimit env fProofOfStake (nTime pindexLast)
  have fits : limit < _ := (targetLimit_range env fProofOfStake (nTime pindexLast)).2
  have own := canonical_required env pindexLast fProofOfStake
  have interval := interval_used (nTime pindexLast)
  have below (n : Int) : min n limit < 2 ^ 256 :=
    lt_of_le_of_lt (min_le_right _ _) (by exact_mod_cast fits)
  obtain ⟨used, nonneg, forward, backward, rule⟩ := retarget_eq interval limit value
    two nActualSpacing
  have computed : nNew = getCompact (min (scaled target spacing used) limit) :=
    (getNextTargetRequired_of_blocksOfKind env blocks).trans (congrArg getCompact rule)
  refine ⟨⟨own.positive fits, own.le_limit fits⟩, ?_, ?_, ?_⟩
  · intro otherLast otherPrev otherPrevPrev otherRest others otherValue sameLimit sameSpacing
      start later
    obtain ⟨otherUsed, _, otherForward, _, otherRule⟩ := retarget_eq interval
      limit otherValue two ((nTime otherPrev : Int) - nTime otherPrevPrev)
    have le : used ≤ otherUsed := by
      rw [forward start, otherForward (start.trans later)]
      exact later
    rw [computed, getNextTargetRequired_of_blocksOfKind env others, sameLimit, sameSpacing,
      otherRule]
    exact setCompact_getCompact_mono (le_min (scaled_pos interval two nonneg).le (by omega))
      (min_le_min_right _ (scaled_mono interval target le)) (below _)
  · intro aimed
    have same : used = spacing := by
      rcases aimed with aimed | backwards
      · rw [forward (aimed ▸ interval.positive.le), aimed]
      · exact backward backwards
    rw [computed, same, scaled_self interval, min_eq_left (by exact_mod_cast limited), canonical]
  · have least := scaled_mono interval target nonneg
    rw [computed, ← scaled_zero interval]
    have most := scaled_mono interval target interval.positive.le
    rw [scaled_self interval] at most
    exact setCompact_getCompact_mono (scaled_pos interval two le_rfl).le
      (le_min least (most.trans (by exact_mod_cast limited))) (below _)

theorem retargeting_fastChain :
    setCompact (getCompact (setCompact (blockOf (fastChain 3)).nBits * 9 / 11)) ≤
      setCompact (getNextTargetRequired slowEnv (fastChain 3) false) := by
  have blocks : blocksOfKind false (fastChain 3) = [fastChain 3, fastChain 2, fastChain 1] := by
    decide +kernel
  have value : setCompact (blockOf (fastChain 3)).nBits =
      ((setCompact (blockOf (fastChain 3)).nBits).toNat : Int) := by decide +kernel
  have interval : nTargetTimespan / nTargetSpacingUsed (nTime (fastChain 3)) = 10 := by
    decide +kernel
  have least := (retargeting_bounded_monotone_stable slowEnv false (fastChain 3) _ _ _ blocks _
    value (by decide +kernel) (by decide +kernel) (by decide +kernel)).2.2.2
  rw [interval, ← value] at least
  exact least

end SynergyChain.Difficulty
