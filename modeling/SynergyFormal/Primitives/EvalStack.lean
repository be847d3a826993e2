import SynergyFormal.Primitives.SigOpBound
import SynergyFormal.Lib.Reasons

/-!
# The stack accesses of the interpreter

`EvalScript` once more, with the stack as the code uses it: each opcode first compares the size of
the stack, then reads with `stacktop`, which throws outside the stack, and removes with `popstack`,
which throws on an empty stack, or with `erase`.  A run ends with the reason it was stopped.

The stack is a list whose head is the top; `stacktop(-i)` is the element at depth `i`, counted
from one.  Memory and the OpenSSL calls do not fail.
-/

set_option autoImplicit false

namespace SynergyData.EvalStack

open SynergyLib.Wire Script SignatureHash Interpreter

/-- Why a run ends before the end of the script. -/
inductive Stop where
  | returnFalse
  /-- The exception of `CastToBigNum`. -/
  | numericOverflow
  /-- An access beside the stack. -/
  | outOfRange
  /-- The exception of `popstack`. -/
  | stackEmpty
  | outOfFuel
  deriving DecidableEq

/-! ## Access -/

/-- `if (stack.size() < n) return false`. -/
def needs (n : Nat) (stack : List Bytes) : Except Stop Unit :=
  if stack.length < n then .error .returnFalse else .ok ()

/-- `stacktop(-i)`. -/
def stacktop (stack : List Bytes) : Nat → Except Stop Bytes
  | 0 => .error .outOfRange
  | i + 1 =>
    match stack[i]? with
    | none => .error .outOfRange
    | some vch => .ok vch

def popstack : List Bytes → Except Stop (List Bytes)
  | [] => .error .stackEmpty
  | _ :: stack => .ok stack

/-- `swap(stacktop(-i), stacktop(-j))`. -/
def swapTop (stack : List Bytes) (i j : Nat) : Except Stop (List Bytes) := do
  let a ← stacktop stack i
  let b ← stacktop stack j
  return (stack.set (i - 1) b).set (j - 1) a

/-- `stack.erase(stack.end()-i, stack.end()-j)`. -/
def eraseRange (stack : List Bytes) (i j : Nat) : Except Stop (List Bytes) :=
  if stack.length < i then .error .outOfRange else .ok (stack.take j ++ stack.drop i)

/-- `stack.insert(stack.end()-i, vch)`. -/
def insertAt (stack : List Bytes) (i : Nat) (vch : Bytes) : Except Stop (List Bytes) :=
  if stack.length < i then .error .outOfRange else .ok (stack.take i ++ vch :: stack.drop i)

/-- `while (i-- > 0) popstack(stack)`. -/
def popAll : Nat → List Bytes → Except Stop (List Bytes)
  | 0, stack => .ok stack
  | i + 1, stack => do
      let stack ← popstack stack
      popAll i stack

def numberOf (vch : Bytes) : Except Stop Int :=
  match castToBigNum vch with
  | none => .error .numericOverflow
  | some bn => .ok bn

/-! ## Opcodes -/

def runStackOp (op : StackOp) (stack : List Bytes) : Except Stop (List Bytes) :=
  match op with
  | .drop2 => do
      needs 2 stack
      let stack ← popstack stack
      popstack stack
  | .dup2 => do
      needs 2 stack
      let vch1 ← stacktop stack 2
      let vch2 ← stacktop stack 1
      return vch2 :: vch1 :: stack
  | .dup3 => do
      needs 3 stack
      let vch1 ← stacktop stack 3
      let vch2 ← stacktop stack 2
      let vch3 ← stacktop stack 1
      return vch3 :: vch2 :: vch1 :: stack
  | .over2 => do
      needs 4 stack
      let vch1 ← stacktop stack 4
      let vch2 ← stacktop stack 3
      return vch2 :: vch1 :: stack
  | .rot2 => do
      needs 6 stack
      let vch1 ← stacktop stack 6
      let vch2 ← stacktop stack 5
      let stack ← eraseRange stack 6 4
      return vch2 :: vch1 :: stack
  | .swap2 => do
      needs 4 stack
      let stack ← swapTop stack 4 2
      swapTop stack 3 1
  | .ifDup => do
      needs 1 stack
      let vch ← stacktop stack 1
      return if castToBool vch then vch :: stack else stack
  | .depth => return getvch stack.length :: stack
  | .drop => do
      needs 1 stack
      popstack stack
  | .dup => do
      needs 1 stack
      let vch ← stacktop stack 1
      return vch :: stack
  | .nip => do
      needs 2 stack
      eraseRange stack 2 1
  | .overOp => do
      needs 2 stack
      let vch ← stacktop stack 2
      return vch :: stack
  | .rot => do
      needs 3 stack
      let stack ← swapTop stack 3 2
      swapTop stack 2 1
  | .swap => do
      needs 2 stack
      swapTop stack 2 1
  | .tuck => do
      needs 2 stack
      let vch ← stacktop stack 1
      insertAt stack 2 vch
  | .size => do
      needs 1 stack
      let vch ← stacktop stack 1
      return getvch vch.length :: stack

def runPick (roll : Bool) (stack : List Bytes) : Except Stop (List Bytes) := do
  needs 2 stack
  let top ← stacktop stack 1
  let n ← numberOf top
  let stack ← popstack stack
  if n < 0 ∨ (stack.length : Int) ≤ n then .error .returnFalse
  else
    let vch ← stacktop stack (n.toNat + 1)
    let stack ← if roll then eraseRange stack (n.toNat + 1) n.toNat else pure stack
    return vch :: stack

/-- The result goes on the stack; a `VERIFY` opcode pops it if it is true. -/
def finish (verify fSuccess : Bool) (vch : Bytes) (stack : List Bytes) :
    Except Stop (List Bytes) :=
  let stack := vch :: stack
  if verify then
    if fSuccess then popstack stack else .error .returnFalse
  else .ok stack

def runOnStack (ctx : Context) (op : Op) (stack : List Bytes) : Except Stop (List Bytes) :=
  match op with
  | .number n => return getvch n :: stack
  | .nop => return stack
  | .verify => do
      needs 1 stack
      let top ← stacktop stack 1
      if castToBool top then popstack stack else .error .returnFalse
  | .stackOp op => runStackOp op stack
  | .pick roll => runPick roll stack
  | .equal verify => do
      needs 2 stack
      let vch1 ← stacktop stack 2
      let vch2 ← stacktop stack 1
      let fEqual := vch1 == vch2
      let stack ← popAll 2 stack
      finish verify fEqual (ofBool fEqual) stack
  | .unary op => do
      needs 1 stack
      let top ← stacktop stack 1
      let bn ← numberOf top
      let stack ← popstack stack
      return getvch (execUnary op bn) :: stack
  | .binary op => do
      needs 2 stack
      let vch1 ← stacktop stack 2
      let bn1 ← numberOf vch1
      let vch2 ← stacktop stack 1
      let bn2 ← numberOf vch2
      let stack ← popAll 2 stack
      let vch := getvch (execBinary op bn1 bn2)
      finish (op == .numEqualVerify) (castToBool vch) vch stack
  | .within => do
      needs 3 stack
      let vch1 ← stacktop stack 3
      let bn1 ← numberOf vch1
      let vch2 ← stacktop stack 2
      let bn2 ← numberOf vch2
      let vch3 ← stacktop stack 1
      let bn3 ← numberOf vch3
      let stack ← popAll 3 stack
      return ofBool (decide (bn2 ≤ bn1) && decide (bn1 < bn3)) :: stack
  | .hash op => do
      needs 1 stack
      let vch ← stacktop stack 1
      let stack ← popstack stack
      return execHash ctx op vch :: stack
  | _ => .error .returnFalse

def runCheckSig (ctx : Context) (verify : Bool) (m : Machine) : Except Stop Machine := do
  needs 2 m.stack
  let vchSig ← stacktop m.stack 2
  let vchPubKey ← stacktop m.stack 1
  let scriptCode := findAndDelete m.pbegincodehash (pushVector vchSig)
  let fSuccess := (checkOne ctx scriptCode vchSig vchPubKey).2
  let stack ← popAll 2 m.stack
  let stack ← finish verify fSuccess (ofBool fSuccess) stack
  return { m with stack }

/-- The loop that drops the signatures from the script, from the `k`th on. -/
def dropSigs (stack : List Bytes) (isig : Nat) : Nat → CScript → Except Stop CScript
  | 0, scriptCode => .ok scriptCode
  | left + 1, scriptCode => do
      let vchSig ← stacktop stack isig
      dropSigs stack (isig + 1) left (findAndDelete scriptCode (pushVector vchSig))

/-- `while (fSuccess && nSigsCount > 0)`, with the keys that are left. -/
def sigLoop (check : Bytes → Bytes → Bool) (stack : List Bytes) :
    Nat → Nat → Nat → Nat → Except Stop Bool
  | _, _, _, 0 => .ok true
  | 0, ikey, isig, _ + 1 => do
      let _ ← stacktop stack isig
      let _ ← stacktop stack ikey
      -- no key is left for the signature
      return false
  | nKeysCount + 1, ikey, isig, nSigsCount + 1 => do
      let vchSig ← stacktop stack isig
      let vchPubKey ← stacktop stack ikey
      if check vchSig vchPubKey then
        if nKeysCount < nSigsCount then return false
        else sigLoop check stack nKeysCount (ikey + 1) (isig + 1) nSigsCount
      else
        if nKeysCount < nSigsCount + 1 then return false
        else sigLoop check stack nKeysCount (ikey + 1) isig (nSigsCount + 1)

def runCheckMultiSig (ctx : Context) (verify : Bool) (m : Machine) : Except Stop Machine := do
  needs 1 m.stack
  let top ← stacktop m.stack 1
  let nKeysCount ← numberOf top
  if nKeysCount < 0 ∨ 20 < nKeysCount then .error .returnFalse
  else
    let nKeys := nKeysCount.toNat
    let nOpCount := m.nOpCount + nKeys
    if 201 < nOpCount then .error .returnFalse
    else
      let ikey := 2
      needs (ikey + nKeys) m.stack
      let below ← stacktop m.stack (ikey + nKeys)
      let nSigsCount ← numberOf below
      if nSigsCount < 0 ∨ nKeysCount < nSigsCount then .error .returnFalse
      else
        let nSigs := nSigsCount.toNat
        let isig := ikey + nKeys + 1
        needs (isig + nSigs) m.stack
        let scriptCode ← dropSigs m.stack isig nSigs m.pbegincodehash
        let check := fun vchSig vchPubKey => (checkOne ctx scriptCode vchSig vchPubKey).2
        let fSuccess ← sigLoop check m.stack nKeys ikey isig nSigs
        let stack ← popAll (isig + nSigs) m.stack
        let stack ← finish verify fSuccess (ofBool fSuccess) stack
        return { m with stack, nOpCount }

/-- The switch. -/
def runOp (ctx : Context) (op : Op) (fExec : Bool) (m : Machine) : Except Stop Machine :=
  match op with
  | .ifOp negated =>
    if fExec then do
      needs 1 m.stack
      let vch ← stacktop m.stack 1
      let stack ← popstack m.stack
      return { m with stack, vfExec := (castToBool vch != negated) :: m.vfExec }
    else return { m with vfExec := false :: m.vfExec }
  | .elseOp =>
    match m.vfExec with
    | fValue :: rest => return { m with vfExec := (!fValue) :: rest }
    | [] => .error .returnFalse
  | .endIf =>
    match m.vfExec with
    | _ :: rest => return { m with vfExec := rest }
    | [] => .error .returnFalse
  | .toAltStack => do
      needs 1 m.stack
      let vch ← stacktop m.stack 1
      let stack ← popstack m.stack
      return { m with stack, altstack := vch :: m.altstack }
  | .fromAltStack => do
      needs 1 m.altstack
      let vch ← stacktop m.altstack 1
      let altstack ← popstack m.altstack
      return { m with altstack, stack := vch :: m.stack }
  | .codeSeparator => return { m with pbegincodehash := m.pc }
  | .checkSig verify => runCheckSig ctx verify m
  | .checkMultiSig verify => runCheckMultiSig ctx verify m
  | op => do
      let stack ← runOnStack ctx op m.stack
      return { m with stack }

/-! ## The loop -/

/-- An opcode that passed the checks before the switch, and the machine that executes it. -/
def readOp (m : Machine) : Except Stop (UInt8 × Bytes × Machine) :=
  match getOp2 m.pc with
  | none => .error .returnFalse
  | some (opcode, vchPushValue, pc) =>
    if maxScriptElementSize < vchPushValue.length then .error .returnFalse
    else
      let nOpCount := if op16 < opcode then m.nOpCount + 1 else m.nOpCount
      if op16 < opcode ∧ 201 < nOpCount then .error .returnFalse
      else if decodeOp opcode = .disabled then .error .returnFalse
      else .ok (opcode, vchPushValue, { m with pc, nOpCount })

def runDispatch (ctx : Context) (opcode : UInt8) (vchPushValue : Bytes) (m : Machine) :
    Except Stop Machine :=
  if fExec m && decide (opcode ≤ opPushData4) then
    .ok { m with stack := vchPushValue :: m.stack }
  else if fExec m || (decide (opIf ≤ opcode) && decide (opcode ≤ opEndIf)) then
    runOp ctx (decodeOp opcode) (fExec m) m
  else .ok m

/-- One pass of the loop. -/
def runStep (ctx : Context) (m : Machine) : Except Stop Machine := do
  let (opcode, vchPushValue, m) ← readOp m
  let m ← runDispatch ctx opcode vchPushValue m
  if 1000 < m.stack.length + m.altstack.length then .error .returnFalse else return m

def runLoop (ctx : Context) : Nat → Machine → Except Stop Machine
  | 0, m => if m.pc = [] then .ok m else .error .outOfFuel
  | fuel + 1, m =>
    if m.pc = [] then .ok m
    else do
      let next ← runStep ctx m
      runLoop ctx fuel next

/-- The machine at the beginning of a script. -/
def begin (stack : List Bytes) (script : CScript) : Machine := ⟨script, script, [], stack, [], 0⟩

/-- `EvalScript`, with as many passes as the script has bytes. -/
def runScript (ctx : Context) (stack : List Bytes) (script : CScript) :
    Except Stop (List Bytes) :=
  if 10000 < script.length then .error .returnFalse
  else do
    let m ← runLoop ctx script.length (begin stack script)
    if m.vfExec = [] then return m.stack else .error .returnFalse

end SynergyData.EvalStack
