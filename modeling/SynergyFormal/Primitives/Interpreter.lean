import SynergyFormal.Primitives.SignatureHash

/-!
# The script interpreter

`EvalScript` and `VerifyScript` of `script.cpp` with every opcode.  The stack is a list
whose head is the top.  A failed check, an exception and an out-of-range access all make
the call return false, which is `none` here.

The interpreter is instrumented with the number of `CheckSig` calls it makes, also in
runs that fail: a computation is a pair of that number and its result.
-/

set_option autoImplicit false

namespace SynergyData.Interpreter

open SynergyLib.Wire Script Transaction Block SignatureHash

/-- What the interpreter calls but does not define. -/
structure Crypto where
  ripemd160 : Bytes → Bytes
  sha1 : Bytes → Bytes
  sha256 : Bytes → Bytes
  hash160 : Bytes → Bytes
  /-- `CKey::CheckSignatureElement(S, nLenS, true)`. -/
  checkSignatureElement : Bytes → Bool
  /-- `CKey::SetPubKey` and `CKey::Verify`; the signature cache only remembers the answer. -/
  verify : Bytes → Uint256 → Bytes → Bool

/-- The arguments that stay fixed during a call. -/
structure Context where
  env : Env
  crypto : Crypto
  txTo : CTransaction
  nIn : Nat
  nHashType : Int32

/-! ## Opcodes -/

inductive StackOp where
  | drop2 | dup2 | dup3 | over2 | rot2 | swap2 | ifDup | depth | drop | dup | nip | overOp | rot
  | swap | tuck | size
  deriving DecidableEq

inductive UnaryOp where
  | add1 | sub1 | negate | abs | not | notEqual0
  deriving DecidableEq

inductive BinaryOp where
  | add | sub | boolAnd | boolOr | numEqual | numEqualVerify | numNotEqual | lessThan
  | greaterThan | lessThanOrEqual | greaterThanOrEqual | min | max
  deriving DecidableEq

inductive HashOp where
  | ripemd160 | sha1 | sha256 | hash160 | hash256
  deriving DecidableEq

inductive Op where
  | number (n : Int)
  | nop
  | ifOp (negated : Bool)
  | elseOp
  | endIf
  | verify
  | returnOp
  | toAltStack
  | fromAltStack
  | stackOp (op : StackOp)
  | pick (roll : Bool)
  | equal (verify : Bool)
  | unary (op : UnaryOp)
  | binary (op : BinaryOp)
  | within
  | hash (op : HashOp)
  | codeSeparator
  | checkSig (verify : Bool)
  | checkMultiSig (verify : Bool)
  /-- Refused wherever it stands. -/
  | disabled
  /-- The default of the switch. -/
  | bad
  deriving DecidableEq

def op1Negate : UInt8 := 0x4f
def opIf : UInt8 := 0x63
def opEndIf : UInt8 := 0x68

/-- The enumeration `opcodetype`, above the pushes. -/
def decodeOp (opcode : UInt8) : Op :=
  if opcode = op1Negate ∨ (op1 ≤ opcode ∧ opcode ≤ op16) then .number (opcode.toNat - 0x50)
  else
    match opcode.toNat with
    | 0x61 => .nop
    | 0x63 => .ifOp false
    | 0x64 => .ifOp true
    | 0x67 => .elseOp
    | 0x68 => .endIf
    | 0x69 => .verify
    | 0x6a => .returnOp
    | 0x6b => .toAltStack
    | 0x6c => .fromAltStack
    | 0x6d => .stackOp .drop2
    | 0x6e => .stackOp .dup2
    | 0x6f => .stackOp .dup3
    | 0x70 => .stackOp .over2
    | 0x71 => .stackOp .rot2
    | 0x72 => .stackOp .swap2
    | 0x73 => .stackOp .ifDup
    | 0x74 => .stackOp .depth
    | 0x75 => .stackOp .drop
    | 0x76 => .stackOp .dup
    | 0x77 => .stackOp .nip
    | 0x78 => .stackOp .overOp
    | 0x79 => .pick false
    | 0x7a => .pick true
    | 0x7b => .stackOp .rot
    | 0x7c => .stackOp .swap
    | 0x7d => .stackOp .tuck
    -- OP_CAT, OP_SUBSTR, OP_LEFT, OP_RIGHT
    | 0x7e | 0x7f | 0x80 | 0x81 => .disabled
    | 0x82 => .stackOp .size
    -- OP_INVERT, OP_AND, OP_OR, OP_XOR
    | 0x83 | 0x84 | 0x85 | 0x86 => .disabled
    | 0x87 => .equal false
    | 0x88 => .equal true
    | 0x8b => .unary .add1
    | 0x8c => .unary .sub1
    -- OP_2MUL, OP_2DIV
    | 0x8d | 0x8e => .disabled
    | 0x8f => .unary .negate
    | 0x90 => .unary .abs
    | 0x91 => .unary .not
    | 0x92 => .unary .notEqual0
    | 0x93 => .binary .add
    | 0x94 => .binary .sub
    -- OP_MUL, OP_DIV, OP_MOD, OP_LSHIFT, OP_RSHIFT
    | 0x95 | 0x96 | 0x97 | 0x98 | 0x99 => .disabled
    | 0x9a => .binary .boolAnd
    | 0x9b => .binary .boolOr
    | 0x9c => .binary .numEqual
    | 0x9d => .binary .numEqualVerify
    | 0x9e => .binary .numNotEqual
    | 0x9f => .binary .lessThan
    | 0xa0 => .binary .greaterThan
    | 0xa1 => .binary .lessThanOrEqual
    | 0xa2 => .binary .greaterThanOrEqual
    | 0xa3 => .binary .min
    | 0xa4 => .binary .max
    | 0xa5 => .within
    | 0xa6 => .hash .ripemd160
    | 0xa7 => .hash .sha1
    | 0xa8 => .hash .sha256
    | 0xa9 => .hash .hash160
    | 0xaa => .hash .hash256
    | 0xab => .codeSeparator
    | 0xac => .checkSig false
    | 0xad => .checkSig true
    | 0xae => .checkMultiSig false
    | 0xaf => .checkMultiSig true
    -- OP_NOP1 to OP_NOP10
    | 0xb0 | 0xb1 | 0xb2 | 0xb3 | 0xb4 | 0xb5 | 0xb6 | 0xb7 | 0xb8 | 0xb9 => .nop
    | _ => .bad

/-! ## Values -/

def castToBool : Bytes → Bool
  | [] => false
  -- the last byte may be the sign of a negative zero
  | [last] => last != 0 && last != 0x80
  | byte :: next :: rest => byte != 0 || castToBool (next :: rest)

def ofBool (fValue : Bool) : Bytes := if fValue then [1] else []

/-- `CBigNum::setvch`. -/
def setvch (vch : Bytes) : Int :=
  match vch.getLast? with
  | none => 0
  | some top =>
    if top < 0x80 then readBytes vch
    else -(readBytes (vch.dropLast ++ [top &&& 0x7f]) : Int)

def nMaxNumSize : Nat := 4

def castToBigNum (vch : Bytes) : Option Int :=
  if nMaxNumSize < vch.length then none else some (setvch vch)

def boolNum (fValue : Bool) : Int := if fValue then 1 else 0

/-! ## Signatures -/

def isCanonicalPubKey (vchPubKey : Bytes) : Bool :=
  if vchPubKey.length < 33 then false
  else if vchPubKey.getD 0 0 = 0x04 then vchPubKey.length == 65
  else if vchPubKey.getD 0 0 = 0x02 ∨ vchPubKey.getD 0 0 = 0x03 then vchPubKey.length == 33
  else false

/-- A DER integer at `start`: tagged, not empty, not negative and not padded. -/
def isCanonicalInteger (vchSig : Bytes) (start nLen : Nat) : Bool :=
  vchSig.getD (start - 2) 0 == 0x02 && nLen != 0 && vchSig.getD start 0 &&& 0x80 == 0 &&
    !(decide (1 < nLen) && vchSig.getD start 0 == 0x00 && vchSig.getD (start + 1) 0 &&& 0x80 == 0)

def isCanonicalSignature (crypto : Crypto) (vchSig : Bytes) : Bool :=
  let nHashType := vchSig.getD (vchSig.length - 1) 0 &&& 0x7f
  let nLenR := (vchSig.getD 3 0).toNat
  let nLenS := (vchSig.getD (5 + nLenR) 0).toNat
  decide (9 ≤ vchSig.length) && decide (vchSig.length ≤ 73) &&
    decide (1 ≤ nHashType) && decide (nHashType ≤ 3) &&
    vchSig.getD 0 0 == 0x30 && (vchSig.getD 1 0).toNat == vchSig.length - 3 &&
    decide (5 + nLenR < vchSig.length) && nLenR + nLenS + 7 == vchSig.length &&
    isCanonicalInteger vchSig 4 nLenR && isCanonicalInteger vchSig (6 + nLenR) nLenS &&
    crypto.checkSignatureElement ((vchSig.drop (6 + nLenR)).take nLenS)

/-- The hash type is one byte tacked on to the end of the signature. -/
def checkSig (ctx : Context) (vchSig vchPubKey : Bytes) (scriptCode : CScript) : Bool :=
  match vchSig.getLast? with
  | none => false
  | some last =>
    let tacked : Int32 := Int32.ofNat last.toNat
    if ctx.nHashType ≠ 0 ∧ ctx.nHashType ≠ tacked then false
    else
      let sighash := signatureHash ctx.env scriptCode ctx.txTo ctx.nIn tacked
      ctx.crypto.verify vchPubKey sighash vchSig.dropLast

/-- One guarded signature check and the number of `CheckSig` calls in it. -/
def checkOne (ctx : Context) (scriptCode : CScript) (vchSig vchPubKey : Bytes) : Nat × Bool :=
  if isCanonicalSignature ctx.crypto vchSig && isCanonicalPubKey vchPubKey then
    (1, checkSig ctx vchSig vchPubKey scriptCode)
  else (0, false)

/-- The matching loop of `OP_CHECKMULTISIG`: a key that does not fit is passed over, and
the loop gives up when fewer keys than signatures are left. -/
def matchSigs (check : Bytes → Bytes → Nat × Bool) : List Bytes → List Bytes → Nat × Bool
  | [], _ => (0, true)
  | _ :: _, [] => (0, false)
  | sig :: sigs, key :: keys =>
    let first := check sig key
    let left := if first.2 then sigs else sig :: sigs
    if keys.length < left.length then (first.1, false)
    else
      let rest := matchSigs check left keys
      (first.1 + rest.1, rest.2)

/-! ## Instructions -/

structure Machine where
  /-- What is left of the script. -/
  pc : CScript
  /-- The script from the last code separator on. -/
  pbegincodehash : CScript
  /-- The open conditionals, innermost first. -/
  vfExec : List Bool
  stack : List Bytes
  altstack : List Bytes
  nOpCount : Nat

def execStackOp : StackOp → List Bytes → Option (List Bytes)
  | .drop2, _ :: _ :: s => some s
  | .dup2, x2 :: x1 :: s => some (x2 :: x1 :: x2 :: x1 :: s)
  | .dup3, x3 :: x2 :: x1 :: s => some (x3 :: x2 :: x1 :: x3 :: x2 :: x1 :: s)
  | .over2, x4 :: x3 :: x2 :: x1 :: s => some (x2 :: x1 :: x4 :: x3 :: x2 :: x1 :: s)
  | .rot2, x6 :: x5 :: x4 :: x3 :: x2 :: x1 :: s => some (x2 :: x1 :: x6 :: x5 :: x4 :: x3 :: s)
  | .swap2, x4 :: x3 :: x2 :: x1 :: s => some (x2 :: x1 :: x4 :: x3 :: s)
  | .ifDup, x :: s => some (if castToBool x then x :: x :: s else x :: s)
  | .depth, s => some (getvch s.length :: s)
  | .drop, _ :: s => some s
  | .dup, x :: s => some (x :: x :: s)
  | .nip, x2 :: _ :: s => some (x2 :: s)
  | .overOp, x2 :: x1 :: s => some (x1 :: x2 :: x1 :: s)
  | .rot, x3 :: x2 :: x1 :: s => some (x1 :: x3 :: x2 :: s)
  | .swap, x2 :: x1 :: s => some (x1 :: x2 :: s)
  | .tuck, x2 :: x1 :: s => some (x2 :: x1 :: x2 :: s)
  | .size, x :: s => some (getvch x.length :: x :: s)
  | _, _ => none

def execPick (roll : Bool) : List Bytes → Option (List Bytes)
  | top :: x :: s => do
      let n ← castToBigNum top
      let stack := x :: s
      if n < 0 ∨ (stack.length : Int) ≤ n then none
      else
        let vch := stack.getD n.toNat []
        return vch :: (if roll then stack.eraseIdx n.toNat else stack)
  | _ => none

def execUnary : UnaryOp → Int → Int
  | .add1, bn => bn + 1
  | .sub1, bn => bn - 1
  | .negate, bn => -bn
  | .abs, bn => if bn < 0 then -bn else bn
  | .not, bn => boolNum (bn == 0)
  | .notEqual0, bn => boolNum (bn != 0)

def execBinary : BinaryOp → Int → Int → Int
  | .add, bn1, bn2 => bn1 + bn2
  | .sub, bn1, bn2 => bn1 - bn2
  | .boolAnd, bn1, bn2 => boolNum (bn1 != 0 && bn2 != 0)
  | .boolOr, bn1, bn2 => boolNum (bn1 != 0 || bn2 != 0)
  | .numEqual, bn1, bn2 => boolNum (bn1 == bn2)
  | .numEqualVerify, bn1, bn2 => boolNum (bn1 == bn2)
  | .numNotEqual, bn1, bn2 => boolNum (bn1 != bn2)
  | .lessThan, bn1, bn2 => boolNum (decide (bn1 < bn2))
  | .greaterThan, bn1, bn2 => boolNum (decide (bn2 < bn1))
  | .lessThanOrEqual, bn1, bn2 => boolNum (decide (bn1 ≤ bn2))
  | .greaterThanOrEqual, bn1, bn2 => boolNum (decide (bn2 ≤ bn1))
  | .min, bn1, bn2 => if bn1 < bn2 then bn1 else bn2
  | .max, bn1, bn2 => if bn2 < bn1 then bn1 else bn2

def execHash (ctx : Context) : HashOp → Bytes → Bytes
  | .ripemd160, vch => ctx.crypto.ripemd160 vch
  | .sha1, vch => ctx.crypto.sha1 vch
  | .sha256, vch => ctx.crypto.sha256 vch
  | .hash160, vch => ctx.crypto.hash160 vch
  | .hash256, vch => writeUint256 (ctx.env.hash vch)

/-- The `VERIFY` variants pop a true result and fail on a false one. -/
def pushResult (verify fSuccess : Bool) (s : List Bytes) : Option (List Bytes) :=
  if verify then (if fSuccess then some s else none) else some (ofBool fSuccess :: s)

/-- The stack after an instruction that only touches the stack. -/
def execOnStack (ctx : Context) : Op → List Bytes → Option (List Bytes)
  | .number n, s => some (getvch n :: s)
  | .nop, s => some s
  | .verify, top :: s => if castToBool top then some s else none
  | .stackOp op, s => execStackOp op s
  | .pick roll, s => execPick roll s
  | .equal verify, vch2 :: vch1 :: s => pushResult verify (vch1 == vch2) s
  | .unary op, top :: s => do
      let bn ← castToBigNum top
      return getvch (execUnary op bn) :: s
  | .binary op, x2 :: x1 :: s => do
      let bn1 ← castToBigNum x1
      let bn2 ← castToBigNum x2
      let vch := getvch (execBinary op bn1 bn2)
      if op = .numEqualVerify then (if castToBool vch then some s else none)
      else some (vch :: s)
  | .within, x3 :: x2 :: x1 :: s => do
      let bn1 ← castToBigNum x1
      let bn2 ← castToBigNum x2
      let bn3 ← castToBigNum x3
      return ofBool (decide (bn2 ≤ bn1) && decide (bn1 < bn3)) :: s
  | .hash op, vch :: s => some (execHash ctx op vch :: s)
  | _, _ => none

def execCheckSig (ctx : Context) (verify : Bool) (m : Machine) : Nat × Option Machine :=
  match m.stack with
  | vchPubKey :: vchSig :: s =>
    -- a signature cannot sign itself
    let scriptCode := findAndDelete m.pbegincodehash (pushVector vchSig)
    let checked := checkOne ctx scriptCode vchSig vchPubKey
    (checked.1, (pushResult verify checked.2 s).map fun stack => { m with stack })
  | _ => (0, none)

/-- The operands of `OP_CHECKMULTISIG`: signatures, keys, and how many elements they take
with the two counts and the extra one below. -/
def multiSigOperands (m : Machine) : Option (List Bytes × List Bytes × Nat) := do
  let top ← m.stack[0]?
  let nKeysCount ← castToBigNum top
  if nKeysCount < 0 ∨ 20 < nKeysCount ∨ 201 < m.nOpCount + nKeysCount then none
  else do
    let nKeys := nKeysCount.toNat
    let below ← m.stack[1 + nKeys]?
    let nSigsCount ← castToBigNum below
    if nSigsCount < 0 ∨ nKeysCount < nSigsCount then none
    else
      let nSigs := nSigsCount.toNat
      if m.stack.length < 3 + nKeys + nSigs then none
      else
        return ((m.stack.drop (2 + nKeys)).take nSigs, (m.stack.drop 1).take nKeys,
          3 + nKeys + nSigs)

def execCheckMultiSig (ctx : Context) (verify : Bool) (m : Machine) : Nat × Option Machine :=
  match multiSigOperands m with
  | none => (0, none)
  | some (sigs, keys, i) =>
    let scriptCode := sigs.foldl (fun code vchSig => findAndDelete code (pushVector vchSig))
      m.pbegincodehash
    let matched := matchSigs (checkOne ctx scriptCode) sigs keys
    (matched.1, (pushResult verify matched.2 (m.stack.drop i)).map fun stack =>
      { m with stack, nOpCount := m.nOpCount + keys.length })

/-- The switch of `EvalScript`.  A conditional that is not executed opens a branch that is
not executed. -/
def execOp (ctx : Context) (op : Op) (fExec : Bool) (m : Machine) : Nat × Option Machine :=
  match op with
  | .ifOp negated =>
    (0, if fExec then
        match m.stack with
        | top :: stack => some { m with stack, vfExec := (castToBool top != negated) :: m.vfExec }
        | [] => none
      else some { m with vfExec := false :: m.vfExec })
  | .elseOp =>
    (0, match m.vfExec with
      | fValue :: rest => some { m with vfExec := (!fValue) :: rest }
      | [] => none)
  | .endIf =>
    (0, match m.vfExec with
      | _ :: rest => some { m with vfExec := rest }
      | [] => none)
  | .toAltStack =>
    (0, match m.stack with
      | top :: stack => some { m with stack, altstack := top :: m.altstack }
      | [] => none)
  | .fromAltStack =>
    (0, match m.altstack with
      | top :: altstack => some { m with altstack, stack := top :: m.stack }
      | [] => none)
  | .codeSeparator => (0, some { m with pbegincodehash := m.pc })
  | .checkSig verify => execCheckSig ctx verify m
  | .checkMultiSig verify => execCheckMultiSig ctx verify m
  | op => (0, (execOnStack ctx op m.stack).map fun stack => { m with stack })

/-! ## EvalScript -/

def maxScriptElementSize : Nat := 520

def fExec (m : Machine) : Bool := m.vfExec.all id

def withinLimits (m : Machine) : Bool := decide (m.stack.length + m.altstack.length ≤ 1000)

/-- An instruction that was read: pushes go to the stack, the rest to the switch. -/
def dispatch (ctx : Context) (opcode : UInt8) (vchPushValue : Bytes) (m : Machine) :
    Nat × Option Machine :=
  if fExec m && decide (opcode ≤ opPushData4) then
    (0, some { m with stack := vchPushValue :: m.stack })
  else if fExec m || (decide (opIf ≤ opcode) && decide (opcode ≤ opEndIf)) then
    execOp ctx (decodeOp opcode) (fExec m) m
  else (0, some m)

def evalStep (ctx : Context) (m : Machine) : Nat × Option Machine :=
  match getOp2 m.pc with
  | none => (0, none)
  | some (opcode, vchPushValue, pc) =>
    let nOpCount := if op16 < opcode then m.nOpCount + 1 else m.nOpCount
    if maxScriptElementSize < vchPushValue.length ∨ (op16 < opcode ∧ 201 < nOpCount) ∨
        decodeOp opcode = .disabled then (0, none)
    else
      let result := dispatch ctx opcode vchPushValue { m with pc, nOpCount }
      (result.1, result.2.filter withinLimits)

/-- The loop.  One unit of fuel is spent per instruction. -/
def evalLoop (ctx : Context) : Nat → Machine → Nat × Option Machine
  | 0, m => (0, if m.pc = [] then some m else none)
  | fuel + 1, m =>
    if m.pc = [] then (0, some m)
    else
      let step := evalStep ctx m
      match step.2 with
      | none => (step.1, none)
      | some next =>
        let rest := evalLoop ctx fuel next
        (step.1 + rest.1, rest.2)

def evalScript (ctx : Context) (stack : List Bytes) (script : CScript) :
    Nat × Option (List Bytes) :=
  if 10000 < script.length then (0, none)
  else
    let run := evalLoop ctx script.length ⟨script, script, [], stack, [], 0⟩
    (run.1, run.2.bind fun m => if m.vfExec = [] then some m.stack else none)

/-! ## VerifyScript -/

def pushOnlyFrom : Nat → CScript → Bool
  | 0, _ => true
  | fuel + 1, pc =>
    if pc = [] then true
    else
      match getOp2 pc with
      | none => false
      | some (opcode, _, pc) => if op16 < opcode then false else pushOnlyFrom fuel pc

def isPushOnly (script : CScript) : Bool := pushOnlyFrom script.length script

def topIsTrue : Option (List Bytes) → Bool
  | some (top :: _) => castToBool top
  | _ => false

/-- The answer of `VerifyScript`, and the `CheckSig` calls made by the redeem script. -/
structure Verification where
  valid : Bool
  redeemCalls : Nat

def verifyScript (ctx : Context) (scriptSig scriptPubKey : CScript) : Verification :=
  match (evalScript ctx [] scriptSig).2 with
  | none => ⟨false, 0⟩
  | some stackCopy =>
    if topIsTrue (evalScript ctx stackCopy scriptPubKey).2 = false then ⟨false, 0⟩
    else if isPayToScriptHash scriptPubKey = false then ⟨true, 0⟩
    else if isPushOnly scriptSig = false then ⟨false, 0⟩
    else
      match stackCopy with
      | [] => ⟨false, 0⟩
      | pubKey2 :: stackCopy =>
        let redeem := evalScript ctx stackCopy pubKey2
        ⟨topIsTrue redeem.2, redeem.1⟩

end SynergyData.Interpreter
