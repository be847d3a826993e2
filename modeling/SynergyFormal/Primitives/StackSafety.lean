import SynergyFormal.Primitives.EvalStack

/-!
# Safety of the interpreter

The size check before each opcode covers its accesses: `EvalStack` never leaves the stack and
never pops an empty one, and without its reasons it is the interpreter of `Interpreter`.
-/

set_option autoImplicit false

namespace SynergyData.StackSafety

open SynergyLib
open Wire Reasons Script SignatureHash Interpreter SigOpBound EvalStack

/-- The ends of a run that are no access beside the stack. -/
def Harmless (stop : Stop) : Prop := stop = .returnFalse ∨ stop = .numericOverflow

theorem explains_false {α : Type} :
    Explains Harmless (Except.error .returnFalse) (none : Option α) :=
  explains_error (Or.inl rfl)

/-! ## Opcodes that only touch the stack -/

variable {vch : Bytes} {stack : List Bytes} {i n fuel : Nat} {verify : Bool} {ctx : Context}
  {op : Op} {m : Machine}

theorem explains_numberOf : Explains Harmless (numberOf vch) (castToBigNum vch) := by
  unfold numberOf
  cases castToBigNum vch with
  | none => exact explains_error (Or.inr rfl)
  | some bn => exact explains_ok

theorem explains_stackOp {op : StackOp} :
    Explains Harmless (runStackOp op stack) (execStackOp op stack) := by
  -- a stack with as many elements as the opcode needs, or a shorter one
  cases op with
  | depth => rfl
  | ifDup | drop | dup | size =>
    rcases stack with _ | ⟨x1, s⟩ <;> first | rfl | exact explains_false
  | drop2 | dup2 | nip | overOp | swap | tuck =>
    rcases stack with _ | ⟨x1, _ | ⟨x2, s⟩⟩ <;> first | rfl | exact explains_false
  | dup3 | rot =>
    rcases stack with _ | ⟨x1, _ | ⟨x2, _ | ⟨x3, s⟩⟩⟩ <;> first | rfl | exact explains_false
  | over2 | swap2 =>
    rcases stack with _ | ⟨x1, _ | ⟨x2, _ | ⟨x3, _ | ⟨x4, s⟩⟩⟩⟩ <;>
      first | rfl | exact explains_false
  | rot2 =>
    rcases stack with _ | ⟨x1, _ | ⟨x2, _ | ⟨x3, _ | ⟨x4, _ | ⟨x5, _ | ⟨x6, s⟩⟩⟩⟩⟩⟩ <;>
      first | rfl | exact explains_false

theorem stacktop_of_lt (inside : i < stack.length) :
    stacktop stack (i + 1) = .ok (stack.getD i []) := by
  rw [stacktop, List.getD_eq_getElem?_getD, List.getElem?_eq_getElem inside]
  rfl

theorem eraseRange_one (inside : i < stack.length) :
    eraseRange stack (i + 1) i = .ok (stack.eraseIdx i) := by
  rw [eraseRange, if_neg (by omega), List.eraseIdx_eq_take_drop_succ]

theorem explains_pick {roll : Bool} :
    Explains Harmless (runPick roll stack) (execPick roll stack) := by
  rcases stack with _ | ⟨top, _ | ⟨x, s⟩⟩
  · exact explains_false
  · exact explains_false
  · refine explains_numberOf.bind fun n _ => ?_
    by_cases outside : n < 0 ∨ ((x :: s).length : Int) ≤ n
    · simp only [popstack, ok_bind, if_pos outside]
      exact explains_false
    · have inside : n.toNat < (x :: s).length := by omega
      simp only [popstack, ok_bind, if_neg outside, stacktop_of_lt inside]
      cases roll with
      | true =>
        simp only [eraseRange_one inside, if_true]
        rfl
      | false => rfl

theorem explains_finish {fSuccess : Bool} :
    Explains Harmless (finish verify fSuccess (ofBool fSuccess) stack)
      (pushResult verify fSuccess stack) := by
  cases verify <;> cases fSuccess <;> first | rfl | exact explains_false

theorem explains_verified {op : BinaryOp} :
    Explains Harmless (finish (op == .numEqualVerify) (castToBool vch) vch stack)
      (if op = .numEqualVerify then (if castToBool vch then some stack else none)
        else some (vch :: stack)) := by
  cases op with
  | numEqualVerify => cases castToBool vch <;> first | rfl | exact explains_false
  | _ => rfl

theorem explains_onStack :
    Explains Harmless (runOnStack ctx op stack) (execOnStack ctx op stack) := by
  cases op with
  | number n => rfl
  | nop => rfl
  | verify =>
    rcases stack with _ | ⟨top, s⟩
    · exact explains_false
    · change Explains Harmless (if castToBool top = true then _ else _)
        (if castToBool top = true then some s else none)
      split_ifs
      · rfl
      · exact explains_false
  | stackOp op => exact explains_stackOp
  | pick roll => exact explains_pick
  | equal verify =>
    rcases stack with _ | ⟨vch2, _ | ⟨vch1, s⟩⟩
    · exact explains_false
    · exact explains_false
    · exact explains_finish
  | unary op =>
    rcases stack with _ | ⟨top, s⟩
    · exact explains_false
    · exact explains_numberOf.bind fun bn _ => rfl
  | binary op =>
    rcases stack with _ | ⟨x2, _ | ⟨x1, s⟩⟩
    · exact explains_false
    · exact explains_false
    · refine explains_numberOf.bind fun bn1 _ => ?_
      refine explains_numberOf.bind fun bn2 _ => ?_
      exact explains_verified
  | within =>
    rcases stack with _ | ⟨x3, _ | ⟨x2, _ | ⟨x1, s⟩⟩⟩
    · exact explains_false
    · exact explains_false
    · exact explains_false
    · refine explains_numberOf.bind fun bn1 _ => ?_
      refine explains_numberOf.bind fun bn2 _ => ?_
      exact explains_numberOf.bind fun bn3 _ => rfl
  | hash op =>
    rcases stack with _ | ⟨vch, s⟩
    · exact explains_false
    · rfl
  | _ => exact explains_false

/-! ## Signatures -/

theorem popAll_eq : ∀ stack : List Bytes, i ≤ stack.length →
    popAll i stack = .ok (stack.drop i) := by
  induction i with
  | zero => intro stack _; rfl
  | succ i ih =>
    intro stack enough
    cases stack with
    | nil => simp at enough
    | cons top stack => exact ih stack (by simpa using enough)

theorem explains_checkSig :
    Explains Harmless (runCheckSig ctx verify m) (execCheckSig ctx verify m).2 := by
  obtain ⟨pc, code, vfExec, stack, altstack, nOpCount⟩ := m
  rcases stack with _ | ⟨vchPubKey, _ | ⟨vchSig, s⟩⟩
  · exact explains_false
  · exact explains_false
  · exact explains_finish.map fun stack =>
      Machine.mk pc code vfExec stack altstack nOpCount

theorem take_drop_succ {count : Nat} (inside : i < stack.length) :
    (stack.drop i).take (count + 1) = stack.getD i [] :: (stack.drop (i + 1)).take count := by
  rw [List.drop_eq_getElem_cons inside, List.take_succ_cons, List.getD_eq_getElem?_getD,
    List.getElem?_eq_getElem inside]
  rfl

theorem dropSigs_eq {left : Nat} : ∀ (isig : Nat) (scriptCode : CScript),
    isig + left ≤ stack.length →
    dropSigs stack (isig + 1) left scriptCode = .ok (((stack.drop isig).take left).foldl
        (fun code vchSig => findAndDelete code (pushVector vchSig)) scriptCode) := by
  induction left with
  | zero =>
    intro isig scriptCode _
    rw [List.take_zero]
    rfl
  | succ left ih =>
    intro isig scriptCode inside
    rw [dropSigs, stacktop_of_lt (by omega), ok_bind, take_drop_succ (by omega), ih _ _ (by omega)]
    rfl

theorem sigLoop_eq {check : Bytes → Bytes → Nat × Bool} {nKeys : Nat} :
    ∀ ikey isig nSigs : Nat, nSigs ≤ nKeys → ikey + nKeys ≤ stack.length →
      isig + nSigs ≤ stack.length →
      sigLoop (fun vchSig vchPubKey => (check vchSig vchPubKey).2) stack nKeys (ikey + 1)
          (isig + 1) nSigs =
        .ok (matchSigs check ((stack.drop isig).take nSigs) ((stack.drop ikey).take nKeys)).2 := by
  induction nKeys with
  | zero =>
    intro ikey isig nSigs fewer _ _
    obtain rfl : nSigs = 0 := by omega
    rw [List.take_zero]
    rfl
  | succ nKeys ih =>
    intro ikey isig nSigs fewer keysInside sigsInside
    cases nSigs with
    | zero => rw [List.take_zero, sigLoop, matchSigs]
    | succ nSigs =>
      have keysLength : ((stack.drop (ikey + 1)).take nKeys).length = nKeys := by
        rw [List.length_take, List.length_drop]; omega
      have sigsLength : ((stack.drop (isig + 1)).take nSigs).length = nSigs := by
        rw [List.length_take, List.length_drop]; omega
      rw [sigLoop, stacktop_of_lt (by omega), stacktop_of_lt (by omega), ok_bind, ok_bind,
        take_drop_succ (by omega : isig < stack.length),
        take_drop_succ (by omega : ikey < stack.length), matchSigs]
      cases matched : (check (stack.getD isig []) (stack.getD ikey [])).2 with
      | true =>
        simp only [if_true, keysLength, sigsLength]
        split
        · rfl
        · exact ih (ikey + 1) (isig + 1) nSigs (by omega) (by omega) (by omega)
      | false =>
        simp only [Bool.false_eq_true, if_false, List.length_cons, keysLength, sigsLength]
        split
        · rfl
        · rw [← take_drop_succ (by omega : isig < stack.length)]
          exact ih (ikey + 1) isig (nSigs + 1) (by omega) (by omega) (by omega)

theorem execCheckMultiSig_eq (ctx : Context) (verify : Bool) (m : Machine) :
    (execCheckMultiSig ctx verify m).2 = (multiSigOperands m).bind fun operands =>
      let scriptCode := operands.1.foldl
        (fun code vchSig => findAndDelete code (pushVector vchSig)) m.pbegincodehash
      let matched := matchSigs (checkOne ctx scriptCode) operands.1 operands.2.1
      (pushResult verify matched.2 (m.stack.drop operands.2.2)).map fun stack =>
        { m with stack, nOpCount := m.nOpCount + operands.2.1.length } := by
  rw [execCheckMultiSig]
  cases multiSigOperands m <;> rfl

theorem needs_of_le (enough : n ≤ stack.length) : needs n stack = .ok () := if_neg (by omega)

theorem needs_of_lt (short : stack.length < n) : needs n stack = .error .returnFalse := if_pos short

theorem explains_stacktop (inside : i < stack.length) :
    Explains Harmless (stacktop stack (i + 1)) stack[i]? := by
  rw [stacktop, List.getElem?_eq_getElem inside]
  exact explains_ok

theorem explains_checkMultiSig :
    Explains Harmless (runCheckMultiSig ctx verify m) (execCheckMultiSig ctx verify m).2 := by
  rw [execCheckMultiSig_eq, multiSigOperands, runCheckMultiSig]
  simp only [Option.bind_eq_bind, Option.bind_assoc]
  by_cases empty : m.stack.length < 1
  · rw [needs_of_lt empty, List.getElem?_eq_none (by omega)]
    exact explains_false
  rw [needs_of_le (by omega), ok_bind]
  refine (explains_stacktop (by omega)).bind fun top _ => ?_
  refine explains_numberOf.bind fun nKeysCount _ => ?_
  by_cases range : nKeysCount < 0 ∨ 20 < nKeysCount
  · rw [if_pos range, if_pos (by omega)]
    exact explains_false
  by_cases counted : 201 < m.nOpCount + nKeysCount.toNat
  · rw [if_neg range, if_pos counted, if_pos (by omega)]
    exact explains_false
  rw [if_neg range, if_neg counted, if_neg (by omega)]
  by_cases keysShort : m.stack.length < 2 + nKeysCount.toNat
  · rw [needs_of_lt keysShort, List.getElem?_eq_none (by omega)]
    exact explains_false
  rw [needs_of_le (by omega), ok_bind, Option.bind_assoc]
  have shifted : 2 + nKeysCount.toNat = (1 + nKeysCount.toNat) + 1 := by omega
  rw [shifted]
  refine (explains_stacktop (by omega)).bind fun below _ => ?_
  rw [Option.bind_assoc]
  refine explains_numberOf.bind fun nSigsCount _ => ?_
  by_cases sigRange : nSigsCount < 0 ∨ nKeysCount < nSigsCount
  · rw [if_pos sigRange, if_pos sigRange]
    exact explains_false
  rw [if_neg sigRange, if_neg sigRange]
  by_cases sigsShort : m.stack.length < 3 + nKeysCount.toNat + nSigsCount.toNat
  · rw [needs_of_lt (by omega), if_pos sigsShort]
    exact explains_false
  rw [needs_of_le (by omega), if_neg sigsShort, ok_bind, dropSigs_eq _ _ (by omega), ok_bind,
    sigLoop_eq 1 _ _ (by omega) (by omega) (by omega), ok_bind, popAll_eq _ (by omega),
    ok_bind]
  have keysLength : ((m.stack.drop 1).take nKeysCount.toNat).length = nKeysCount.toNat := by
    rw [List.length_take, List.length_drop]; omega
  have consumed : 1 + nKeysCount.toNat + 1 + 1 + nSigsCount.toNat =
      3 + nKeysCount.toNat + nSigsCount.toNat := by omega
  rw [consumed]
  simp only [pure, Option.bind_some, keysLength]
  exact explains_finish.map fun stack =>
    { m with stack, nOpCount := m.nOpCount + nKeysCount.toNat }

/-! ## The switch and the loop -/

theorem explains_op {executed : Bool} :
    Explains Harmless (runOp ctx op executed m) (execOp ctx op executed m).2 := by
  obtain ⟨pc, code, vfExec, stack, altstack, nOpCount⟩ := m
  cases op with
  | ifOp negated =>
    cases executed with
    | false => rfl
    | true => cases stack <;> first | rfl | exact explains_false
  | elseOp | endIf => cases vfExec <;> first | rfl | exact explains_false
  | toAltStack => cases stack <;> first | rfl | exact explains_false
  | fromAltStack => cases altstack <;> first | rfl | exact explains_false
  | codeSeparator => rfl
  | checkSig verify => exact explains_checkSig
  | checkMultiSig verify => exact explains_checkMultiSig
  | _ =>
    exact explains_onStack.map fun stack =>
      Machine.mk pc code vfExec stack altstack nOpCount

theorem explains_dispatch {opcode : UInt8} {vchPushValue : Bytes} :
    Explains Harmless (runDispatch ctx opcode vchPushValue m)
      (dispatch ctx opcode vchPushValue m).2 := by
  unfold runDispatch dispatch
  split_ifs
  · exact explains_ok
  · exact explains_op
  · exact explains_ok

theorem explains_step : Explains Harmless (runStep ctx m) (evalStep ctx m).2 := by
  unfold runStep readOp evalStep
  cases getOp2 m.pc with
  | none => exact explains_false
  | some triple =>
    obtain ⟨opcode, vchPushValue, pc⟩ := triple
    dsimp only
    generalize (if op16 < opcode then m.nOpCount + 1 else m.nOpCount) = nOpCount
    rw [ite_or, ite_or]
    split_ifs with big many disabled
    · exact explains_false
    · exact explains_false
    · exact explains_false
    apply explains_dispatch.filter (Or.inl rfl)
    intro next
    simp [withinLimits]

theorem evalLoop_result (unfinished : ¬ m.pc = []) : (evalLoop ctx (fuel + 1) m).2 =
      (evalStep ctx m).2 >>= fun next => (evalLoop ctx fuel next).2 := by
  rw [evalLoop, if_neg unfinished]
  dsimp only
  cases (evalStep ctx m).2 <;> rfl

theorem explains_loop (m : Machine) (enough : m.pc.length ≤ fuel) :
    Explains Harmless (runLoop ctx fuel m) (evalLoop ctx fuel m).2 := by
  induction fuel generalizing m with
  | zero =>
    have finished : m.pc = [] := List.eq_nil_of_length_eq_zero (by omega)
    rw [runLoop, evalLoop, if_pos finished, if_pos finished]
    exact explains_ok
  | succ fuel ih =>
    rw [runLoop]
    split_ifs with finished
    · rw [evalLoop, if_pos finished]
      exact explains_ok
    · rw [evalLoop_result finished]
      apply explains_step.bind
      intro next ran
      have shorter := evalStep_shorter (explains_step.eq_some ran)
      exact ih next (by omega)

theorem explains_script {script : CScript} :
    Explains Harmless (runScript ctx stack script) (evalScript ctx stack script).2 := by
  unfold runScript evalScript
  split_ifs
  · exact explains_false
  · apply (explains_loop (begin stack script) le_rfl).bind
    intro m _
    split_ifs
    · exact explains_ok
    · exact explains_false

end SynergyData.StackSafety
