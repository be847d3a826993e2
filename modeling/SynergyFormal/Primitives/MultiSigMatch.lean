import SynergyFormal.Lib.Matching
import SynergyFormal.Primitives.StackSafety

/-!
# The matching of `OP_CHECKMULTISIG`

The loop tries the signatures against the keys in one pass and gives up when fewer keys than
signatures are left.  It succeeds exactly when the signatures can be assigned to keys in order.
-/

set_option autoImplicit false

namespace SynergyData.MultiSigMatch

open SynergyLib
open Wire Matching Script SignatureHash Interpreter SigOpBound EvalStack StackSafety

/-- Signature and key are canonical and `CheckSig` accepts them for the script code. -/
def Ok (ctx : Context) (scriptCode : CScript) (vchSig vchPubKey : Bytes) : Prop :=
  isCanonicalSignature ctx.crypto vchSig = true ∧ isCanonicalPubKey vchPubKey = true ∧
    checkSig ctx vchSig vchPubKey scriptCode = true

theorem checkOne_iff {ctx : Context} {scriptCode : CScript} {vchSig vchPubKey : Bytes} :
    (checkOne ctx scriptCode vchSig vchPubKey).2 = true ↔ Ok ctx scriptCode vchSig vchPubKey := by
  unfold checkOne Ok
  split_ifs with canonical <;> simp_all

def Accepts (check : Bytes → Bytes → Nat × Bool) (vchSig vchPubKey : Bytes) : Prop :=
  (check vchSig vchPubKey).2 = true

variable {keys below sigs : List Bytes} {m : Machine}

theorem matchSigs_iff {check : Bytes → Bytes → Nat × Bool} :
    ∀ sigs : List Bytes, (matchSigs check sigs keys).2 = true ↔
      List.SublistForall₂ (Accepts check) sigs keys := by
  induction keys with
  | nil =>
    intro sigs
    cases sigs with
    | nil => exact iff_of_true rfl List.SublistForall₂.nil
    | cons sig sigs => exact iff_of_false (by simp [matchSigs]) (fun matched => by cases matched)
  | cons key keys ih =>
    intro sigs
    cases sigs with
    | nil => exact iff_of_true rfl List.SublistForall₂.nil
    | cons sig sigs =>
      rw [matchSigs]
      dsimp only
      have onward : List.SublistForall₂ (Accepts check) (sig :: sigs) (key :: keys) ↔
          List.SublistForall₂ (Accepts check) (if (check sig key).2 then sigs else sig :: sigs)
            keys := by
        split_ifs with fit
        · exact sublist_cons_of_fits fit
        · exact sublist_cons_of_not_fits fit
      rw [onward]
      generalize (if (check sig key).2 then sigs else sig :: sigs) = left
      -- the left side gives up early only when the right side has too few places
      split_ifs with short
      · refine iff_of_false (by simp) fun matched => ?_
        exact absurd (sublist_length matched) (not_le.mpr short)
      · exact ih _

/-- The script code of the checks: the signatures are dropped from it. -/
def multiSigCode (m : Machine) (sigs : List Bytes) : CScript :=
  sigs.foldl (fun code vchSig => findAndDelete code (pushVector vchSig)) m.pbegincodehash

/-- The stack of a multisig operation, from the top. -/
structure Operands (m : Machine) (sigs keys below : List Bytes) where
  nKeysCount : Bytes
  nSigsCount : Bytes
  /-- The element that is taken in addition. -/
  extra : Bytes
  stack : m.stack = nKeysCount :: (keys ++ nSigsCount :: (sigs ++ extra :: below))
  keyCount : castToBigNum nKeysCount = some (keys.length : Int)
  sigCount : castToBigNum nSigsCount = some (sigs.length : Int)

section Operands
variable (operands : Operands m sigs keys below)
include operands

theorem Operands.length :
    m.stack.length = below.length + (sigs.length + keys.length + 3) := by
  rw [operands.stack]
  simp only [List.length_cons, List.length_append]
  omega

variable (twenty : keys.length ≤ 20) (fewer : sigs.length ≤ keys.length)
  (counted : m.nOpCount + keys.length ≤ 201)
include twenty fewer counted

theorem Operands.multiSigOperands_eq :
    multiSigOperands m = some (sigs, keys, 3 + keys.length + sigs.length) := by
  have total := operands.length
  have range : ¬ ((keys.length : Int) < 0 ∨ 20 < (keys.length : Int) ∨
      201 < (m.nOpCount : Int) + keys.length) := by omega
  have sigRange : ¬ ((sigs.length : Int) < 0 ∨ (keys.length : Int) < sigs.length) := by omega
  have top : m.stack[0]? = some operands.nKeysCount := by rw [operands.stack]; rfl
  have middle : m.stack[1 + keys.length]? = some operands.nSigsCount := by
    rw [operands.stack, Nat.add_comm, List.getElem?_cons_succ, List.getElem?_append_right le_rfl,
      Nat.sub_self]
    rfl
  have keysRead : (m.stack.drop 1).take keys.length = keys := by
    rw [operands.stack, List.drop_succ_cons, List.drop_zero, List.take_left]
  have sigsRead : (m.stack.drop (2 + keys.length)).take sigs.length = sigs := by
    have shift : 2 + keys.length = (keys.length + 1) + 1 := by omega
    rw [operands.stack, shift, List.drop_succ_cons, List.drop_length_add_append,
      List.drop_succ_cons, List.drop_zero, List.take_left]
  rw [multiSigOperands, top, Option.bind_eq_bind, Option.bind_some, operands.keyCount]
  simp only [Option.bind_eq_bind, Option.bind_some, if_neg range, Int.toNat_natCast, middle,
    operands.sigCount, if_neg sigRange, keysRead, sigsRead]
  rw [if_neg (by omega)]
  rfl

theorem Operands.execCheckMultiSig_eq (ctx : Context) (verify : Bool) :
    (execCheckMultiSig ctx verify m).2 =
      (pushResult verify (matchSigs (checkOne ctx (multiSigCode m sigs)) sigs keys).2 below).map
        fun stack => { m with stack, nOpCount := m.nOpCount + keys.length } := by
  have dropped : m.stack.drop (3 + keys.length + sigs.length) = below := by
    have shift : 3 + keys.length + sigs.length = (keys.length + ((sigs.length + 1) + 1)) + 1 := by
      omega
    rw [operands.stack, shift, List.drop_succ_cons, List.drop_length_add_append,
      List.drop_succ_cons, List.drop_length_add_append, List.drop_succ_cons, List.drop_zero]
  rw [StackSafety.execCheckMultiSig_eq, operands.multiSigOperands_eq twenty fewer counted,
    Option.bind_some]
  simp only [dropped]
  rfl

end Operands

/-- The operation leaves its result above the elements below the `m + n + 3` it takes, and the
result says whether the signatures fit keys at increasing places. -/
theorem checkMultiSig_matches (ctx : Context) (m : Machine) (sigs keys below : List Bytes)
    (operands : Operands m sigs keys below) (twenty : keys.length ≤ 20)
    (fewer : sigs.length ≤ keys.length) (counted : m.nOpCount + keys.length ≤ 201) :
    m.stack.length = below.length + (sigs.length + keys.length + 3) ∧
    ∃ fSuccess : Bool,
      (fSuccess = true ↔ ∃ f : Fin sigs.length → Fin keys.length, StrictMono f ∧
        ∀ i, Ok ctx (multiSigCode m sigs) (sigs.get i) (keys.get (f i))) ∧
      (runCheckMultiSig ctx false m).toOption =
        some { m with stack := ofBool fSuccess :: below, nOpCount := m.nOpCount + keys.length } ∧
      (runCheckMultiSig ctx true m).toOption =
        if fSuccess then some { m with stack := below, nOpCount := m.nOpCount + keys.length }
        else none := by
  refine ⟨operands.length, (matchSigs (checkOne ctx (multiSigCode m sigs)) sigs keys).2, ?_, ?_, ?_⟩
  · rw [matchSigs_iff, ← matched_iff_sublist]
    simp only [Matched, Accepts, checkOne_iff]
  · rw [explains_checkMultiSig.toOption,
      operands.execCheckMultiSig_eq twenty fewer counted]
    rfl
  · rw [explains_checkMultiSig.toOption,
      operands.execCheckMultiSig_eq twenty fewer counted, pushResult, if_pos rfl]
    split_ifs <;> rfl

def onlySig : Bytes := [0x30, 6, 2, 1, 1, 2, 1, 1, 1]

def secondKey : Bytes := 2 :: List.replicate 32 1

/-- One signature and two keys, of which the first is not canonical. -/
def twoKeyMachine : Machine := ⟨[], [], [], [[2], [], secondKey, [1], onlySig, []], [], 0⟩

def twoKeyOperands : Operands twoKeyMachine [onlySig] [[], secondKey] [] where
  nKeysCount := [2]
  nSigsCount := [1]
  extra := []
  stack := rfl
  keyCount := by decide
  sigCount := by decide

theorem checkMultiSig_matches_second :
    (runCheckMultiSig toyContext false twoKeyMachine).toOption.map Machine.stack = some [[1]] ∧
      ∃ f : Fin 1 → Fin 2, StrictMono f ∧ ∀ i, Ok toyContext (multiSigCode twoKeyMachine [onlySig])
        ([onlySig].get i) ([[], secondKey].get (f i)) := by
  obtain ⟨_, fSuccess, matched, left, _⟩ := checkMultiSig_matches toyContext twoKeyMachine [onlySig]
    [[], secondKey] [] twoKeyOperands (by decide) (by decide) (by decide)
  have ran : (runCheckMultiSig toyContext false twoKeyMachine).toOption.map Machine.stack =
      some [[1]] := by decide +kernel
  refine ⟨ran, matched.mp ?_⟩
  rw [left] at ran
  cases fSuccess with
  | true => rfl
  | false => exact absurd ran (by decide)

end SynergyData.MultiSigMatch
