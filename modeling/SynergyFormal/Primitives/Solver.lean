import SynergyFormal.Primitives.Script

/-!
# Standard scripts

`Solver` and `ExtractDestination` (`script.cpp`): a script is compared with the templates in the
order of their types, and the pushes that stand for keys, hashes and counts are collected.
-/

set_option autoImplicit false

namespace SynergyData.Solver

open SynergyLib.Wire Script

abbrev Uint160 := Nat

def uint160Of (bytes : Bytes) : Uint160 := readBytes bytes

inductive TxnOutType where
  | nonStandard | pubKey | pubKeyHash | scriptHash | multiSig | nullData
  deriving DecidableEq

def opReturn : UInt8 := 0x6a
def opDup : UInt8 := 0x76
def opEqualVerify : UInt8 := 0x88
def maxOpReturnRelay : Nat := 48

/-- What one instruction of a script is compared with. -/
inductive TemplateOp where
  | opcode (opcode2 : UInt8)
  | smallInteger
  | smallData
  | pubKeyHash
  | pubKey

/-- `OP_PUBKEYS` takes any number of keys and falls through to the operation behind it. -/
inductive TemplateItem where
  | one (op : TemplateOp)
  | pubKeysThen (op : TemplateOp)

def TemplateItem.op : TemplateItem → TemplateOp
  | .one op => op
  | .pubKeysThen op => op

/-- `mTemplates`, in the order of the multimap. -/
def mTemplates : List (TxnOutType × List TemplateItem) :=
  [(.pubKey, [.one .pubKey, .one (.opcode opCheckSig)]),
   (.pubKeyHash, [.one (.opcode opDup), .one (.opcode opHash160), .one .pubKeyHash,
     .one (.opcode opEqualVerify), .one (.opcode opCheckSig)]),
   (.multiSig, [.one .smallInteger, .pubKeysThen .smallInteger, .one (.opcode opCheckMultiSig)]),
   (.nullData, [.one (.opcode opReturn)]),
   (.nullData, [.one (.opcode opReturn), .one .smallData]),
   (.nullData, [.one (.opcode opReturn), .one .smallData, .one (.opcode opReturn),
     .one .smallData])]

/-- The instruction read last, the script behind it and the solutions so far. -/
structure Scan where
  opcode1 : UInt8
  vch1 : Bytes
  pc1 : CScript
  vSolutions : List Bytes

def isKeySize (vch : Bytes) : Bool := decide (33 ≤ vch.length) && decide (vch.length ≤ 120)

/-- The loop of `OP_PUBKEYS`.  Each turn reads an instruction, so the length of the script is
enough turns.  A failed read leaves an invalid opcode, which no template takes. -/
def takeKeys : Nat → Scan → Scan
  | 0, scan => scan
  | turns + 1, scan =>
    if isKeySize scan.vch1 then
      let vSolutions := scan.vSolutions ++ [scan.vch1]
      match getOp2 scan.pc1 with
      | none => ⟨opInvalidOpcode, [], [], vSolutions⟩
      | some (opcode1, vch1, pc1) => takeKeys turns ⟨opcode1, vch1, pc1, vSolutions⟩
    else scan

def isSmallInteger (opcode : UInt8) : Bool :=
  opcode == 0 || (decide (op1 ≤ opcode) && decide (opcode ≤ op16))

def matchOp (scan : Scan) : TemplateOp → Option (List Bytes)
  | .pubKey => if isKeySize scan.vch1 then some (scan.vSolutions ++ [scan.vch1]) else none
  | .pubKeyHash => if scan.vch1.length ≠ 20 then none else some (scan.vSolutions ++ [scan.vch1])
  | .smallInteger =>
    if isSmallInteger scan.opcode1 then
      some (scan.vSolutions ++ [[UInt8.ofNat (decodeOpN scan.opcode1)]])
    else none
  | .smallData => if maxOpReturnRelay < scan.vch1.length then none else some scan.vSolutions
  | .opcode opcode2 =>
    if scan.opcode1 ≠ opcode2 ∨ scan.vch1 ≠ [] then none else some scan.vSolutions

def scanItem (item : TemplateItem) (scan : Scan) : Scan :=
  match item with
  | .one _ => scan
  | .pubKeysThen _ => takeKeys (scan.pc1.length + 1) scan

def matchTemplate : List TemplateItem → CScript → List Bytes → Option (List Bytes)
  | [], pc1, vSolutions => if pc1 = [] then some vSolutions else none
  | item :: items, pc1, vSolutions => do
      let (opcode1, vch1, pc1) ← getOp2 pc1
      let scan := scanItem item ⟨opcode1, vch1, pc1, vSolutions⟩
      let vSolutions ← matchOp scan item.op
      matchTemplate items scan.pc1 vSolutions

/-- The additional checks for `TX_MULTISIG`. -/
def multiSigCounts (vSolutions : List Bytes) : Bool :=
  let m := ((vSolutions.head?.getD []).headD 0).toNat
  let n := ((vSolutions.getLast?.getD []).headD 0).toNat
  decide (1 ≤ m) && decide (1 ≤ n) && decide (m ≤ n) && vSolutions.length - 2 == n

/-- The first template that matches. -/
def firstMatch (scriptPubKey : CScript) : Option (TxnOutType × List Bytes) :=
  mTemplates.findSome? fun tplate =>
    (matchTemplate tplate.2 scriptPubKey []).map fun vSolutions => (tplate.1, vSolutions)

/-- The type and the solutions; `none` is the result false. -/
def solver (scriptPubKey : CScript) : Option (TxnOutType × List Bytes) :=
  if isPayToScriptHash scriptPubKey then
    some (.scriptHash, [(scriptPubKey.drop 2).take 20])
  else
    match firstMatch scriptPubKey with
    | none => none
    | some (.multiSig, vSolutions) =>
      if multiSigCounts vSolutions then some (.multiSig, vSolutions) else none
    | some found => some found

/-! ## Destinations -/

inductive CTxDestination where
  | keyID (id : Uint160)
  | scriptID (id : Uint160)
  deriving DecidableEq

/-- `CPubKey::IsValid`. -/
def isValidSize (vchPubKey : Bytes) : Bool := vchPubKey.length == 33 || vchPubKey.length == 65

def extractDestination (hash160 : Bytes → Bytes) (scriptPubKey : CScript) :
    Option CTxDestination :=
  match solver scriptPubKey with
  | some (.pubKey, [vchPubKey]) =>
    if isValidSize vchPubKey then some (.keyID (uint160Of (hash160 vchPubKey))) else none
  | some (.pubKeyHash, [hashBytes]) => some (.keyID (uint160Of hashBytes))
  | some (.scriptHash, [hashBytes]) => some (.scriptID (uint160Of hashBytes))
  | _ => none

end SynergyData.Solver
