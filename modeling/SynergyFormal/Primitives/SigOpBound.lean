import SynergyFormal.Primitives.Interpreter

/-!
# Signature operations bound the work of a script

The static count of `GetSigOpCount` looks at the opcode before a multi-signature check,
the interpreter at the element on top of the stack.  `Announced` connects them: if the
last opcode pushed a small number and this branch is executed, that number is on top.
One instruction then makes at most the calls it is counted for, and the bound on a run
follows by induction on the instructions.

For a pay-to-script-hash output the redeem script is the last element pushed by a script
of pushes; `PushedLast` follows it through the run.
-/

set_option autoImplicit false

namespace SynergyData.SigOpBound

open Option SynergyLib.Wire Script Interpreter

/-! ## Small numbers -/

variable {n fuel count : Nat} {verify executed fAccurate : Bool} {lastOpcode : UInt8}
  {vchPushValue : Bytes} {stack : List Bytes} {script scriptSig : CScript}

theorem getvch_small (positive : 0 < n) (small : n < 128) : getvch n = [UInt8.ofNat n] := by
  have digits : minimalBytes n = [UInt8.ofNat n] := by
    rw [minimalBytes, Nat.digits_of_lt 256 n (by omega) (by omega), List.map_singleton]
  have value : (UInt8.ofNat n).toNat = n := UInt8.toNat_ofNat_of_lt (by show n < 256; omega)
  have top : UInt8.ofNat n < 0x80 := by
    rw [UInt8.lt_iff_toNat_lt, value]
    exact small
  have nonneg : ¬ (n : Int) < 0 := by omega
  simp only [getvch, Int.natAbs_natCast, digits, List.getLast?_singleton, top, nonneg, if_true,
    if_false]

theorem castToBigNum_small (small : n < 128) : castToBigNum [UInt8.ofNat n] = some (n : Int) := by
  have value : (UInt8.ofNat n).toNat = n := UInt8.toNat_ofNat_of_lt (by show n < 256; omega)
  have top : UInt8.ofNat n < 0x80 := by
    rw [UInt8.lt_iff_toNat_lt, value]
    exact small
  have short : ¬ nMaxNumSize < [UInt8.ofNat n].length := by simp [nMaxNumSize]
  rw [castToBigNum, if_neg short]
  simp [setvch, top, readBytes, value]

/-! ## Calls of one instruction -/

theorem checkOne_calls (ctx : Context) (scriptCode : CScript) (vchSig vchPubKey : Bytes) :
    (checkOne ctx scriptCode vchSig vchPubKey).1 ≤ 1 := by
  unfold checkOne
  split <;> simp

theorem matchSigs_calls {check : Bytes → Bytes → Nat × Bool}
    (each : ∀ vchSig vchPubKey, (check vchSig vchPubKey).1 ≤ 1) (keys : List Bytes) :
    ∀ sigs : List Bytes, (matchSigs check sigs keys).1 ≤ keys.length := by
  induction keys with
  | nil => intro sigs; cases sigs <;> simp [matchSigs]
  | cons key keys ih =>
    intro sigs
    cases sigs with
    | nil => simp [matchSigs]
    | cons sig sigs =>
      have first := each sig key
      rw [matchSigs]
      dsimp only
      generalize (if (check sig key).2 then sigs else sig :: sigs) = left
      have rest := ih left
      rw [List.length_cons]
      split
      · show (check sig key).1 ≤ keys.length + 1
        omega
      · show (check sig key).1 + (matchSigs check left keys).1 ≤ keys.length + 1
        omega

theorem execCheckSig_calls {ctx : Context} {m : Machine} : (execCheckSig ctx verify m).1 ≤ 1 := by
  unfold execCheckSig
  split
  · exact checkOne_calls ctx _ _ _
  · exact Nat.zero_le 1

variable {m next : Machine} {opcode : UInt8} {ctx : Context} {pc : CScript} {data : Bytes}

theorem multiSigOperands_keys {sigs keys : List Bytes} {i : Nat}
    (success : multiSigOperands m = some (sigs, keys, i)) :
    keys.length ≤ 20 ∧ ∀ top rest (n : Nat), m.stack = top :: rest →
      castToBigNum top = some (n : Int) → keys.length ≤ n := by
  obtain ⟨top, found, success⟩ := bind_eq_some_iff.mp success
  obtain ⟨nKeysCount, count, success⟩ := bind_eq_some_iff.mp success
  split at success
  · cases success
  · rename_i range
    obtain ⟨below, _, success⟩ := bind_eq_some_iff.mp success
    obtain ⟨nSigsCount, _, success⟩ := bind_eq_some_iff.mp success
    split at success
    · cases success
    · dsimp only at success
      split at success
      · cases success
      · cases success
        have bound : ((m.stack.drop 1).take nKeysCount.toNat).length ≤ nKeysCount.toNat := by
          rw [List.length_take]; omega
        refine ⟨by omega, fun top' rest n shape value => ?_⟩
        rw [shape] at found
        cases found
        rw [count] at value
        cases value
        omega

theorem execCheckMultiSig_calls : (execCheckMultiSig ctx verify m).1 ≤ 20 ∧
      ∀ top rest (n : Nat), m.stack = top :: rest → castToBigNum top = some (n : Int) →
        (execCheckMultiSig ctx verify m).1 ≤ n := by
  unfold execCheckMultiSig
  cases operands : multiSigOperands m with
  | none => exact ⟨Nat.zero_le 20, fun _ _ n _ _ => Nat.zero_le n⟩
  | some triple =>
    obtain ⟨sigs, keys, i⟩ := triple
    obtain ⟨twenty, counted⟩ := multiSigOperands_keys operands
    have calls := fun scriptCode =>
      matchSigs_calls (checkOne_calls ctx scriptCode) keys sigs
    exact ⟨(calls _).trans twenty,
      fun top rest n shape value => (calls _).trans (counted top rest n shape value)⟩

theorem decodeOp_checkSig (decoded : decodeOp opcode = .checkSig verify) :
    opcode = opCheckSig ∨ opcode = opCheckSigVerify := by
  unfold decodeOp at decoded
  split at decoded
  · cases decoded
  · split at decoded <;> cases decoded
    · rename_i code
      exact Or.inl (UInt8.toNat_inj.mp code)
    · rename_i code
      exact Or.inr (UInt8.toNat_inj.mp code)

theorem decodeOp_checkMultiSig (decoded : decodeOp opcode = .checkMultiSig verify) :
    opcode = opCheckMultiSig ∨ opcode = opCheckMultiSigVerify := by
  unfold decodeOp at decoded
  split at decoded
  · cases decoded
  · split at decoded <;> cases decoded
    · rename_i code
      exact Or.inl (UInt8.toNat_inj.mp code)
    · rename_i code
      exact Or.inr (UInt8.toNat_inj.mp code)

theorem decodeOp_number (low : op1 ≤ opcode) (high : opcode ≤ op16) :
    decodeOp opcode = .number (decodeOpN opcode : Nat) := by
  have lowNat : 0x51 ≤ opcode.toNat := UInt8.le_iff_toNat_le.mp low
  have shift : ((opcode.toNat : Int) - 0x50) = ((opcode.toNat - 0x50 : Nat) : Int) := by omega
  rw [decodeOp, if_pos (Or.inr ⟨low, high⟩), shift]
  rfl

/-! ## Along a run -/

/-- If the last opcode pushed a small number and the branch is executed, the number is on
top of the stack. -/
def Announced (lastOpcode : UInt8) (m : Machine) : Prop :=
  op1 ≤ lastOpcode → lastOpcode ≤ op16 → fExec m = true →
    ∃ rest, m.stack = [UInt8.ofNat (decodeOpN lastOpcode)] :: rest

theorem decodeOpN_range (low : op1 ≤ opcode) (high : opcode ≤ op16) :
    0 < decodeOpN opcode ∧ decodeOpN opcode ≤ 16 := by
  have lowNat : 0x51 ≤ opcode.toNat := UInt8.le_iff_toNat_le.mp low
  have highNat : opcode.toNat ≤ 0x60 := UInt8.le_iff_toNat_le.mp high
  have shift : decodeOpN opcode = opcode.toNat - 0x50 := rfl
  omega

theorem execOp_calls (ctx : Context) (opcode : UInt8) (announced : Announced lastOpcode m)
    (executed : fExec m = true) :
    (execOp ctx (decodeOp opcode) (fExec m) m).1 ≤ sigOpsOf true lastOpcode opcode := by
  cases decoded : decodeOp opcode with
  | checkSig verify =>
    have counted : sigOpsOf true lastOpcode opcode = 1 := by
      rw [sigOpsOf, if_pos (decodeOp_checkSig decoded)]
    rw [counted]
    exact execCheckSig_calls
  | checkMultiSig verify =>
    obtain ⟨twenty, top⟩ := execCheckMultiSig_calls
    have multi := decodeOp_checkMultiSig decoded
    have single : ¬ (opcode = opCheckSig ∨ opcode = opCheckSigVerify) := by
      rcases multi with rfl | rfl <;> decide
    rw [sigOpsOf, if_neg single, if_pos multi]
    split
    · rename_i small
      obtain ⟨rest, shape⟩ := announced small.2.1 small.2.2 executed
      obtain ⟨_, range⟩ := decodeOpN_range small.2.1 small.2.2
      exact top _ rest _ shape (castToBigNum_small (by omega))
    · exact twenty
  | _ => exact Nat.zero_le _

theorem execOp_conditional_calls (low : opIf ≤ opcode) (high : opcode ≤ opEndIf) :
    (execOp ctx (decodeOp opcode) executed m).1 = 0 := by
  cases decoded : decodeOp opcode with
  | checkSig verify =>
    rcases decodeOp_checkSig decoded with rfl | rfl <;> exact absurd high (by decide)
  | checkMultiSig verify =>
    rcases decodeOp_checkMultiSig decoded with rfl | rfl <;> exact absurd high (by decide)
  | _ => rfl

theorem execOp_pc {op : Op} (success : (execOp ctx op executed m).2 = some next) :
    next.pc = m.pc := by
  cases op with
  | ifOp negated =>
    simp only [execOp] at success
    split at success
    · split at success
      · cases success; rfl
      · cases success
    · cases success; rfl
  | elseOp | endIf | toAltStack | fromAltStack =>
    simp only [execOp] at success
    split at success
    · cases success; rfl
    · cases success
  | codeSeparator => cases success; rfl
  | checkSig verify =>
    simp only [execOp, execCheckSig] at success
    split at success
    · obtain ⟨_, _, rfl⟩ := map_eq_some_iff.mp success
      rfl
    · cases success
  | checkMultiSig verify =>
    simp only [execOp, execCheckMultiSig] at success
    split at success
    · cases success
    · obtain ⟨_, _, rfl⟩ := map_eq_some_iff.mp success
      rfl
  | _ =>
    simp only [execOp] at success
    obtain ⟨_, _, rfl⟩ := map_eq_some_iff.mp success
    rfl

theorem dispatch_calls (announced : Announced lastOpcode m) :
    (dispatch ctx opcode vchPushValue m).1 ≤ sigOpsOf true lastOpcode opcode := by
  unfold dispatch
  split
  · exact Nat.zero_le _
  · split
    · rename_i chosen
      cases executed : fExec m with
      | true =>
        have calls := execOp_calls ctx opcode announced executed
        rwa [executed] at calls
      | false =>
        simp only [executed, Bool.false_or, Bool.and_eq_true, decide_eq_true_eq] at chosen
        rw [execOp_conditional_calls chosen.1 chosen.2]
        exact Nat.zero_le _
    · exact Nat.zero_le _

theorem dispatch_next (success : (dispatch ctx opcode vchPushValue m).2 = some next) :
    next.pc = m.pc ∧ Announced opcode next := by
  unfold dispatch at success
  split at success
  · rename_i pushed
    cases success
    refine ⟨rfl, fun low _ _ => ?_⟩
    simp only [Bool.and_eq_true, decide_eq_true_eq] at pushed
    exact absurd (UInt8.le_trans low pushed.2) (by decide)
  · split at success
    · rename_i chosen
      refine ⟨execOp_pc success, fun low high _ => ?_⟩
      rw [decodeOp_number low high] at success
      cases success
      have range := decodeOpN_range low high
      exact ⟨m.stack, by rw [getvch_small range.1 (by omega)]⟩
    · rename_i skipped
      cases success
      refine ⟨rfl, fun _ _ executed => ?_⟩
      simp [executed] at skipped

theorem evalStep_calls (ctx : Context) (announced : Announced lastOpcode m)
    (read : getOp2 m.pc = some (opcode, data, pc)) :
    (evalStep ctx m).1 ≤ sigOpsOf true lastOpcode opcode := by
  simp only [evalStep, read]
  generalize (if op16 < opcode then m.nOpCount + 1 else m.nOpCount) = nOpCount
  split
  · exact Nat.zero_le _
  · exact dispatch_calls announced

theorem evalStep_next (read : getOp2 m.pc = some (opcode, data, pc))
    (success : (evalStep ctx m).2 = some next) : next.pc = pc ∧ Announced opcode next := by
  simp only [evalStep, read] at success
  generalize (if op16 < opcode then m.nOpCount + 1 else m.nOpCount) = nOpCount at success
  split at success
  · cases success
  · exact dispatch_next (filter_eq_some_iff.mp success).1

theorem evalStep_shorter (stepped : (evalStep ctx m).2 = some next) :
    next.pc.length < m.pc.length := by
  cases read : getOp2 m.pc with
  | none => simp [evalStep, read] at stepped
  | some triple =>
    obtain ⟨opcode, data, pc⟩ := triple
    rw [(evalStep_next read stepped).1]
    exact getOp2_shorter read

theorem evalLoop_fuel {more : Nat} (enough : m.pc.length ≤ fuel) :
    evalLoop ctx (fuel + more) m = evalLoop ctx fuel m := by
  induction fuel generalizing m with
  | zero =>
    have empty : m.pc = [] := List.eq_nil_of_length_eq_zero (by omega)
    cases more <;> simp [evalLoop, empty]
  | succ fuel ih =>
    have shape : fuel + 1 + more = (fuel + more) + 1 := by omega
    rw [shape, evalLoop, evalLoop]
    split
    · rfl
    · dsimp only
      cases stepped : (evalStep ctx m).2 with
      | none => rfl
      | some next =>
        have shorter := evalStep_shorter stepped
        simp only [@ih next (by omega)]

theorem countSigOps_add : ∀ (pc : CScript) (lastOpcode : UInt8) (n : Nat),
      countSigOps fAccurate fuel pc lastOpcode n =
        n + countSigOps fAccurate fuel pc lastOpcode 0 := by
  induction fuel with
  | zero => intro pc lastOpcode n; rfl
  | succ fuel ih =>
    intro pc lastOpcode n
    rw [countSigOps, countSigOps]
    cases getOp2 pc with
    | none => rfl
    | some triple =>
      obtain ⟨opcode, data, rest⟩ := triple
      show countSigOps fAccurate fuel rest opcode (n + sigOpsOf fAccurate lastOpcode opcode) =
        n + countSigOps fAccurate fuel rest opcode (0 + sigOpsOf fAccurate lastOpcode opcode)
      rw [ih rest opcode (n + _), ih rest opcode (0 + _)]
      omega

theorem evalLoop_calls : ∀ (m : Machine) (lastOpcode : UInt8),
    Announced lastOpcode m → (evalLoop ctx fuel m).1 ≤ countSigOps true fuel m.pc lastOpcode 0 := by
  induction fuel with
  | zero => intro m lastOpcode _; exact Nat.zero_le _
  | succ fuel ih =>
    intro m lastOpcode announced
    rw [evalLoop]
    split
    · exact Nat.zero_le _
    · rw [countSigOps]
      cases read : getOp2 m.pc with
      | none => simp [evalStep, read]
      | some triple =>
        obtain ⟨opcode, data, pc⟩ := triple
        have calls := evalStep_calls ctx announced read
        dsimp only
        rw [countSigOps_add, Nat.zero_add]
        cases result : (evalStep ctx m).2 with
        | none => exact calls.trans (Nat.le_add_right _ _)
        | some next =>
          obtain ⟨samePc, announcedNext⟩ := evalStep_next read result
          have rest := ih next opcode announcedNext
          rw [samePc] at rest
          exact Nat.add_le_add calls rest

theorem evalScript_calls : (evalScript ctx stack script).1 ≤ getSigOpCount script true := by
  unfold evalScript
  split
  · exact Nat.zero_le _
  · refine evalLoop_calls _ opInvalidOpcode ?_
    intro _ high
    exact absurd high (by decide)

theorem sigOpsOf_accurate : sigOpsOf true lastOpcode opcode ≤ sigOpsOf false lastOpcode opcode := by
  unfold sigOpsOf
  split
  · exact le_rfl
  · split
    · have crude : ¬ (false = true ∧ op1 ≤ lastOpcode ∧ lastOpcode ≤ op16) := by simp
      rw [if_neg crude]
      split
      · rename_i small
        exact (decodeOpN_range small.2.1 small.2.2).2.trans (show 16 ≤ 20 by omega)
      · exact le_rfl
    · exact le_rfl

theorem getSigOpCount_accurate : getSigOpCount script true ≤ getSigOpCount script false := by
  have loop : ∀ (fuel : Nat) (pc : CScript) (lastOpcode : UInt8) (n k : Nat), n ≤ k →
      countSigOps true fuel pc lastOpcode n ≤ countSigOps false fuel pc lastOpcode k := by
    intro fuel
    induction fuel with
    | zero => intro pc lastOpcode n k below; exact below
    | succ fuel ih =>
      intro pc lastOpcode n k below
      rw [countSigOps, countSigOps]
      cases getOp2 pc with
      | none => exact below
      | some triple =>
        exact ih _ _ _ _ (Nat.add_le_add below sigOpsOf_accurate)
  exact loop script.length script opInvalidOpcode 0 0 le_rfl

/-! ## Redeem scripts -/

/-- Running the element as a script checks no signature. -/
def Inert (element : Bytes) : Prop :=
  ∀ (ctx : Context) (stack : List Bytes), (evalScript ctx stack element).1 = 0

/-- The element on top is the operand of the last push, or a small number, for which the
reader of operands has nothing. -/
inductive PushedLast (data : Bytes) : List Bytes → Prop where
  | nothing : data = [] → PushedLast data []
  | operand (rest : List Bytes) : PushedLast data (data :: rest)
  | number (element : Bytes) (rest : List Bytes) : data = [] → Inert element →
      PushedLast data (element :: rest)

theorem inert_of_evalStep {element : Bytes}
    (stops : ∀ (ctx : Context) (m : Machine), m.pc = element → evalStep ctx m = (0, none)) :
    Inert element := by
  intro ctx stack
  unfold evalScript
  split
  · rfl
  · cases element with
    | nil => rfl
    | cons byte rest =>
      have stopped := stops ctx ⟨byte :: rest, byte :: rest, [], stack, [], 0⟩ rfl
      simp [evalLoop, stopped]

theorem decodeOp_eq_number {n : Int} (decoded : decodeOp opcode = .number n) :
    n = -1 ∨ ∃ k : Nat, 0 < k ∧ k ≤ 16 ∧ n = k := by
  unfold decodeOp at decoded
  split at decoded
  · rename_i range
    cases decoded
    rcases range with rfl | ⟨low, high⟩
    · exact Or.inl (by decide)
    · have lowNat : 0x51 ≤ opcode.toNat := UInt8.le_iff_toNat_le.mp low
      have highNat : opcode.toNat ≤ 0x60 := UInt8.le_iff_toNat_le.mp high
      exact Or.inr ⟨opcode.toNat - 0x50, by omega, by omega, by omega⟩
  · split at decoded <;> cases decoded

theorem inert_number {n : Int} (decoded : decodeOp opcode = .number n) : Inert (getvch n) := by
  apply inert_of_evalStep
  intro ctx m here
  rcases decodeOp_eq_number decoded with rfl | ⟨k, positive, small, rfl⟩
  · have negative : getvch (-1) = [0x81] := by
      have digits : minimalBytes 1 = [1] := by
        rw [minimalBytes, Nat.digits_of_lt 256 1 (by omega) (by omega)]
        rfl
      simp only [getvch, Int.reduceNeg, Int.natAbs_neg, Int.natAbs_one, digits]
      decide
    have read : getOp2 m.pc = some (0x81, [], []) := by rw [here, negative]; decide
    have refused : decodeOp 0x81 = .disabled := by decide
    simp [evalStep, read, refused]
  · have truncated : ∀ j : Nat, 0 < j → j ≤ 16 → getOp2 [UInt8.ofNat j] = none := by
      intro j low high
      interval_cases j <;> decide
    have read : getOp2 m.pc = none := by
      rw [here, getvch_small positive (by omega)]
      exact truncated k positive small
    simp [evalStep, read]

theorem getOp2_without_operand (read : getOp2 script = some (opcode, data, pc))
    (plain : ¬ opcode ≤ opPushData4) : data = [] := by
  cases script with
  | nil => cases read
  | cons first rest =>
    simp only [getOp2] at read
    split at read
    · rename_i push
      split at read
      · cases read
      · split at read
        · cases read
        · cases read
          exact absurd push plain
    · cases read
      rfl

theorem decodeOp_low (plain : ¬ opcode ≤ opPushData4) (low : ¬ op16 < opcode) :
    (∃ n, decodeOp opcode = .number n) ∨ decodeOp opcode = .bad := by
  have above : 0x4e < opcode.toNat := by simpa [UInt8.le_iff_toNat_le, opPushData4] using plain
  have below : opcode.toNat ≤ 0x60 := by simpa [UInt8.lt_iff_toNat_lt, op16] using low
  by_cases reserved : opcode.toNat = 0x50
  · have value : opcode = 0x50 := UInt8.toNat_inj.mp reserved
    exact Or.inr (by rw [value]; decide)
  · refine Or.inl ⟨opcode.toNat - 0x50, ?_⟩
    rw [decodeOp, if_pos]
    by_cases negate : opcode.toNat = 0x4f
    · exact Or.inl (UInt8.toNat_inj.mp negate)
    · exact Or.inr ⟨UInt8.le_iff_toNat_le.mpr (show 0x51 ≤ opcode.toNat by omega),
        UInt8.le_iff_toNat_le.mpr below⟩

theorem evalStep_push (read : getOp2 m.pc = some (opcode, data, pc)) (push : ¬ op16 < opcode)
    (unconditional : m.vfExec = []) (success : (evalStep ctx m).2 = some next) :
    next.pc = pc ∧ next.vfExec = [] ∧ PushedLast data next.stack := by
  simp only [evalStep, read, if_neg push] at success
  split at success
  · cases success
  · have stepped := (filter_eq_some_iff.mp success).1
    have executed : fExec { m with pc } = true := by simp [fExec, unconditional]
    simp only [dispatch, executed, Bool.true_and, Bool.true_or, decide_eq_true_eq, if_true]
      at stepped
    split at stepped
    · cases stepped
      exact ⟨rfl, unconditional, .operand m.stack⟩
    · rename_i plain
      rcases decodeOp_low plain push with ⟨n, decoded⟩ | decoded
      · rw [decoded] at stepped
        cases stepped
        exact ⟨rfl, unconditional,
          .number _ _ (getOp2_without_operand read plain) (inert_number decoded)⟩
      · rw [decoded] at stepped
        cases stepped

theorem evalLoop_push : ∀ (m last : Machine) (data : Bytes),
    pushOnlyFrom fuel m.pc = true → m.vfExec = [] → PushedLast data m.stack →
    (evalLoop ctx fuel m).2 = some last →
    ∃ data', lastPush fuel m.pc data = some data' ∧ PushedLast data' last.stack := by
  induction fuel with
  | zero =>
    intro m last data _ _ pushed run
    simp only [evalLoop] at run
    split at run
    · cases run
      exact ⟨data, rfl, pushed⟩
    · cases run
  | succ fuel ih =>
    intro m last data only unconditional pushed run
    rw [evalLoop] at run
    rw [lastPush]
    rw [pushOnlyFrom] at only
    split at run
    · rename_i empty
      cases run
      exact ⟨data, by rw [if_pos empty], pushed⟩
    · rename_i more
      rw [if_neg more] at only ⊢
      cases read : getOp2 m.pc with
      | none => simp [read] at only
      | some triple =>
        obtain ⟨opcode, operand, pc⟩ := triple
        simp only [read] at only ⊢
        split at only
        · cases only
        · rename_i push
          rw [if_neg push]
          dsimp only at run
          cases stepped : (evalStep ctx m).2 with
          | none => simp [stepped] at run
          | some next =>
            simp only [stepped] at run
            obtain ⟨samePc, unconditionalNext, pushedNext⟩ :=
              evalStep_push read push unconditional stepped
            rw [← samePc] at only ⊢
            exact ih next last operand only unconditionalNext pushedNext run

theorem evalScript_pushed (only : isPushOnly scriptSig = true)
    (success : (evalScript ctx [] scriptSig).2 = some stack) :
    ∃ data, lastPush scriptSig.length scriptSig [] = some data ∧ PushedLast data stack := by
  unfold evalScript at success
  split at success
  · cases success
  · obtain ⟨last, run, closed⟩ := bind_eq_some_iff.mp success
    split at closed
    · cases closed
      exact evalLoop_push ⟨scriptSig, scriptSig, [], [], [], 0⟩ last [] only rfl (.nothing rfl) run
    · cases closed

/-! ## The counters of the source -/

/-- `GetSigOpCount` returns an `unsigned int`. -/
def sigOpCountWord (script : CScript) (fAccurate : Bool) : UInt32 :=
  UInt32.ofNat (getSigOpCount script fAccurate)

def sigOpCountWordP2SH (scriptPubKey scriptSig : CScript) : UInt32 :=
  UInt32.ofNat (getSigOpCountP2SH scriptPubKey scriptSig)

theorem countSigOps_le : ∀ (pc : CScript) (lastOpcode : UInt8),
    countSigOps fAccurate fuel pc lastOpcode 0 ≤ 20 * pc.length := by
  have each : ∀ lastOpcode opcode, sigOpsOf fAccurate lastOpcode opcode ≤ 20 := by
    intro lastOpcode opcode
    unfold sigOpsOf
    split
    · omega
    · split
      · split
        · rename_i small
          exact (decodeOpN_range small.2.1 small.2.2).2.trans (show 16 ≤ 20 by omega)
        · exact le_rfl
      · omega
  induction fuel with
  | zero => intro pc lastOpcode; exact Nat.zero_le _
  | succ fuel ih =>
    intro pc lastOpcode
    rw [countSigOps]
    cases read : getOp2 pc with
    | none => exact Nat.zero_le _
    | some triple =>
      obtain ⟨opcode, data, rest⟩ := triple
      have shorter := getOp2_shorter read
      have here := each lastOpcode opcode
      have later := ih rest opcode
      dsimp only
      rw [countSigOps_add]
      omega

theorem getSigOpCount_le : getSigOpCount script fAccurate ≤ 20 * script.length :=
  countSigOps_le script opInvalidOpcode

theorem sigOpCountWord_toNat (short : 20 * script.length < 2 ^ 32) :
    (sigOpCountWord script fAccurate).toNat = getSigOpCount script fAccurate := by
  rw [sigOpCountWord, UInt32.toNat_ofNat']
  exact Nat.mod_eq_of_lt (getSigOpCount_le.trans_lt short)

theorem evalScript_calls_word :
    (evalScript ctx stack script).1 ≤ (sigOpCountWord script true).toNat := by
  by_cases long : 10000 < script.length
  · rw [evalScript, if_pos long]
    exact Nat.zero_le _
  · rw [sigOpCountWord_toNat (by omega)]
    exact evalScript_calls

theorem redeemCalls_le {scriptPubKey : CScript}
    (payToScriptHash : isPayToScriptHash scriptPubKey = true) :
    (verifyScript ctx scriptSig scriptPubKey).redeemCalls ≤
      (sigOpCountWordP2SH scriptPubKey scriptSig).toNat := by
  have scriptHash : ¬ isPayToScriptHash scriptPubKey = false := by simp [payToScriptHash]
  simp only [verifyScript, if_neg scriptHash]
  cases evaluated : (evalScript ctx [] scriptSig).2 with
  | none => exact Nat.zero_le _
  | some stackCopy =>
    dsimp only
    split
    · exact Nat.zero_le _
    · split
      · exact Nat.zero_le _
      · rename_i only
        obtain ⟨data, read, pushed⟩ := evalScript_pushed (by simpa using only) evaluated
        rw [sigOpCountWordP2SH, getSigOpCountP2SH, if_neg scriptHash, read]
        cases pushed with
        | nothing empty => exact Nat.zero_le _
        | operand rest => exact evalScript_calls_word
        | number element rest empty inert =>
          dsimp only
          rw [inert ctx rest]
          exact Nat.zero_le _

/-- The counts of signature operations bound the `CheckSig` calls of every run: of a
script on any stack, and of the redeem script of a pay-to-script-hash output.  The two
counts of a script compare as long as neither can wrap. -/
theorem sigOps_bound_checkSig_calls (ctx : Context) :
    (∀ (stack : List Bytes) (script : CScript),
      (evalScript ctx stack script).1 ≤ (sigOpCountWord script true).toNat ∧
        (20 * script.length < 2 ^ 32 →
          (sigOpCountWord script true).toNat ≤ (sigOpCountWord script false).toNat)) ∧
    ∀ scriptSig scriptPubKey : CScript, isPayToScriptHash scriptPubKey = true →
      (verifyScript ctx scriptSig scriptPubKey).valid = true →
      (verifyScript ctx scriptSig scriptPubKey).redeemCalls ≤
        (sigOpCountWordP2SH scriptPubKey scriptSig).toNat := by
  refine ⟨fun stack script => ⟨evalScript_calls_word, fun short => ?_⟩,
    fun scriptSig scriptPubKey payToScriptHash _ =>
      redeemCalls_le payToScriptHash⟩
  rw [sigOpCountWord_toNat short, sigOpCountWord_toNat short]
  exact getSigOpCount_accurate

/-! ## One signature behind a script hash -/

def toyCrypto : Crypto where
  ripemd160 := id
  sha1 := id
  sha256 := id
  hash160 := fun _ => List.replicate 20 7
  checkSignatureElement := fun _ => true
  verify := fun _ _ _ => true

def toyContext : Context where
  env :=
    { hash := fun _ => 0
      hash9 := fun _ => 0
      fTestNet := true
      readTx := fun _ => none
      readBlockTime := fun _ _ => none
      verifySignature := fun _ _ _ => true
      checkBlockSignature := fun _ => true
      extractDestination := fun _ => none
      isStandard := fun _ => true
      areInputsStandard := fun _ _ => true
      findStealthTransactions := fun _ mine => mine
      nMinimumInputValue := 0 }
  crypto := toyCrypto
  txTo := ⟨1, 0, [⟨⟨1, 0⟩, [], 0⟩], [], 0, [], 0⟩
  nIn := 0
  nHashType := 0

/-- A public key and `OP_CHECKSIG`. -/
def toyRedeem : CScript := pushVector (2 :: List.replicate 32 1) ++ [opCheckSig]

def toyScriptSig : CScript :=
  pushVector [0x30, 6, 2, 1, 1, 2, 1, 1, 1] ++ pushVector toyRedeem

def toyScriptPubKey : CScript := opHash160 :: pushVector (List.replicate 20 7) ++ [opEqual]

theorem sigOps_bound_checkSig_calls_toy :
    (verifyScript toyContext toyScriptSig toyScriptPubKey).valid = true ∧
      (verifyScript toyContext toyScriptSig toyScriptPubKey).redeemCalls = 1 ∧
      (verifyScript toyContext toyScriptSig toyScriptPubKey).redeemCalls ≤
        (sigOpCountWordP2SH toyScriptPubKey toyScriptSig).toNat := by
  have valid : (verifyScript toyContext toyScriptSig toyScriptPubKey).valid = true := by
    decide +kernel
  exact ⟨valid, by decide +kernel,
    (sigOps_bound_checkSig_calls toyContext).2 toyScriptSig toyScriptPubKey (by decide) valid⟩

/-! ## A count that wraps -/

/-- `OP_16 OP_CHECKMULTISIG`, over and over. -/
def multiSigs : Nat → CScript
  | 0 => []
  | count + 1 => op16 :: opCheckMultiSig :: multiSigs count

theorem multiSigs_length : (multiSigs count).length = 2 * count := by
  induction count with
  | zero => rfl
  | succ count ih =>
    simp only [multiSigs, List.length_cons, ih]
    omega

theorem countSigOps_multiSigs : ∀ lastOpcode : UInt8,
    countSigOps fAccurate (2 * count) (multiSigs count) lastOpcode 0 =
      count * (if fAccurate then 16 else 20) := by
  induction count with
  | zero => intro lastOpcode; simp [countSigOps]
  | succ count ih =>
    intro lastOpcode
    have number : ∀ rest, getOp2 (op16 :: rest) = some (op16, [], rest) := fun _ => rfl
    have check : ∀ rest, getOp2 (opCheckMultiSig :: rest) = some (opCheckMultiSig, [], rest) :=
      fun _ => rfl
    have none : sigOpsOf fAccurate lastOpcode op16 = 0 := by cases fAccurate <;> rfl
    have keys : sigOpsOf fAccurate op16 opCheckMultiSig = if fAccurate then 16 else 20 := by
      cases fAccurate <;> decide
    rw [show 2 * (count + 1) = 2 * count + 1 + 1 by omega, multiSigs, countSigOps, number]
    dsimp only
    rw [countSigOps, check]
    dsimp only
    rw [countSigOps_add, ih, none, keys, Nat.add_mul]
    omega

/-- Past 2^32 operations the crude count is the smaller one. -/
theorem sigOpCount_wraps :
    ¬ (sigOpCountWord (multiSigs 214748365) true).toNat ≤
      (sigOpCountWord (multiSigs 214748365) false).toNat := by
  have accurate : getSigOpCount (multiSigs 214748365) true = 214748365 * 16 := by
    rw [getSigOpCount, multiSigs_length]
    exact countSigOps_multiSigs opInvalidOpcode
  have crude : getSigOpCount (multiSigs 214748365) false = 214748365 * 20 := by
    rw [getSigOpCount, multiSigs_length]
    exact countSigOps_multiSigs opInvalidOpcode
  rw [sigOpCountWord, sigOpCountWord, accurate, crude]
  decide

end SynergyData.SigOpBound
