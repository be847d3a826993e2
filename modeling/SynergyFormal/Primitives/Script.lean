import SynergyFormal.Lib.Wire
import Mathlib.Data.List.Infix

/-!
# Scripts

`CScript` as a byte vector: the instruction reader, the signature-operation
counts and the push operators (`script.h`, `script.cpp`, `bignum.h`).  Of the push
operators the ledger needs one fact: two different heights cannot both be the
first push of one script, `height_tag_unique`.

Counts are natural numbers; a script is far shorter than 2^32 / 20 bytes, so the
source's `unsigned int` counters do not wrap.
-/

set_option autoImplicit false

namespace SynergyData.Script

open SynergyLib.Wire

abbrev CScript := List UInt8

def opPushData1 : UInt8 := 0x4c
def opPushData2 : UInt8 := 0x4d
def opPushData4 : UInt8 := 0x4e
def op1 : UInt8 := 0x51
def op16 : UInt8 := 0x60
def opEqual : UInt8 := 0x87
def opHash160 : UInt8 := 0xa9
def opCheckSig : UInt8 := 0xac
def opCheckSigVerify : UInt8 := 0xad
def opCheckMultiSig : UInt8 := 0xae
def opCheckMultiSigVerify : UInt8 := 0xaf
def opInvalidOpcode : UInt8 := 0xff

/-! ## Reading instructions -/

/-- The operand size of a push opcode and the bytes after the size field. -/
def pushSize (opcode : UInt8) (rest : CScript) : Option (Nat × CScript) :=
  if opcode < opPushData1 then some (opcode.toNat, rest)
  else if opcode = opPushData1 then
    if rest.length < 1 then none else some (readBytes (rest.take 1), rest.drop 1)
  else if opcode = opPushData2 then
    if rest.length < 2 then none else some (readBytes (rest.take 2), rest.drop 2)
  else
    if rest.length < 4 then none else some (readBytes (rest.take 4), rest.drop 4)

/-- `GetOp2`: the opcode, its immediate operand and the remaining script.  The bytes left,
`(unsigned int)(end() - pc)`, are cut to 32 bits, so that a push with 4 GiB behind it may be
refused. -/
def getOp2 : CScript → Option (UInt8 × Bytes × CScript)
  | [] => none
  | opcode :: rest =>
    if opcode ≤ opPushData4 then
      match pushSize opcode rest with
      | none => none
      | some (nSize, operand) =>
        if operand.length % 2 ^ 32 < nSize then none
        else some (opcode, operand.take nSize, operand.drop nSize)
    else some (opcode, [], rest)

variable {nSize n : Nat} {rest operand script pc : CScript} {opcode : UInt8} {data : Bytes}

theorem pushSize_length (success : pushSize opcode rest = some (nSize, operand)) :
    operand.length ≤ rest.length := by
  unfold pushSize at success
  split_ifs at success <;> grind

theorem getOp2_shorter (success : getOp2 script = some (opcode, data, pc)) :
    pc.length < script.length := by
  cases script with
  | nil => simp [getOp2] at success
  | cons first rest =>
    simp only [getOp2] at success
    split_ifs at success with push
    · cases sized : pushSize first rest with
      | none => simp [sized] at success
      | some pair =>
        obtain ⟨nSize, operand⟩ := pair
        have bound := pushSize_length sized
        simp only [sized] at success
        split_ifs at success
        grind
    · grind

/-- The instruction that stands complete at the head of a script, whatever its length. -/
def getOp : CScript → Option (UInt8 × Bytes × CScript)
  | [] => none
  | opcode :: rest =>
    if opcode ≤ opPushData4 then
      match pushSize opcode rest with
      | none => none
      | some (nSize, operand) =>
        if operand.length < nSize then none
        else some (opcode, operand.take nSize, operand.drop nSize)
    else some (opcode, [], rest)

theorem getOp2_eq_some {result : UInt8 × Bytes × CScript} (success : getOp2 script = some result) :
    getOp script = some result := by
  cases script with
  | nil => cases success
  | cons opcode rest =>
    simp only [getOp2] at success
    simp only [getOp]
    split_ifs at success ⊢
    · cases sized : pushSize opcode rest with
      | none => simp [sized] at success
      | some pair =>
        obtain ⟨nSize, operand⟩ := pair
        simp only [sized] at success ⊢
        split_ifs at success with short
        have cut := Nat.mod_le operand.length (2 ^ 32)
        rw [if_neg (by omega)]
        exact success
    · exact success

/-! ## Signature operations -/

def decodeOpN (opcode : UInt8) : Nat := opcode.toNat - (op1.toNat - 1)

def sigOpsOf (fAccurate : Bool) (lastOpcode opcode : UInt8) : Nat :=
  if opcode = opCheckSig ∨ opcode = opCheckSigVerify then 1
  else if opcode = opCheckMultiSig ∨ opcode = opCheckMultiSigVerify then
    if fAccurate = true ∧ op1 ≤ lastOpcode ∧ lastOpcode ≤ op16 then decodeOpN lastOpcode else 20
  else 0

/-- The counting loop.  One unit of fuel is spent per instruction. -/
def countSigOps (fAccurate : Bool) : Nat → CScript → UInt8 → Nat → Nat
  | 0, _, _, n => n
  | fuel + 1, pc, lastOpcode, n =>
    match getOp2 pc with
    | none => n
    | some (opcode, _, pc) =>
      countSigOps fAccurate fuel pc opcode (n + sigOpsOf fAccurate lastOpcode opcode)

def getSigOpCount (script : CScript) (fAccurate : Bool) : Nat :=
  countSigOps fAccurate script.length script opInvalidOpcode 0

theorem countSigOps_fuel {fAccurate : Bool} {pc : CScript} {lastOpcode : UInt8}
    {fuel n more : Nat} (enough : pc.length ≤ fuel) :
    countSigOps fAccurate (fuel + more) pc lastOpcode n =
      countSigOps fAccurate fuel pc lastOpcode n := by
  induction fuel generalizing pc lastOpcode n with
  | zero =>
    have empty : pc = [] := List.eq_nil_of_length_eq_zero (by omega)
    subst empty
    cases more <;> simp [countSigOps, getOp2]
  | succ fuel ih =>
    have shape : fuel + 1 + more = (fuel + more) + 1 := by omega
    rw [shape, countSigOps, countSigOps]
    cases read : getOp2 pc with
    | none => rfl
    | some triple =>
      obtain ⟨opcode, data, rest⟩ := triple
      have shorter := getOp2_shorter read
      exact ih (by omega)

def isPayToScriptHash (script : CScript) : Bool :=
  script.length == 23 && script[0]? == some opHash160 && script[1]? == some 0x14 &&
    script[22]? == some opEqual

/-- The last operand a push-only script leaves, `none` on anything else. -/
def lastPush : Nat → CScript → Bytes → Option Bytes
  | 0, _, data => some data
  | fuel + 1, pc, data =>
    if pc = [] then some data
    else
      match getOp2 pc with
      | none => none
      | some (opcode, operand, pc) => if op16 < opcode then none else lastPush fuel pc operand

def getSigOpCountP2SH (scriptPubKey scriptSig : CScript) : Nat :=
  if isPayToScriptHash scriptPubKey = false then getSigOpCount scriptPubKey true
  else
    match lastPush scriptSig.length scriptSig [] with
    | none => 0
    | some subscript => getSigOpCount subscript true

/-! ## Pushing numbers -/

/-- `CBigNum::getvch`: little-endian magnitude whose top bit is the sign. -/
def getvch (n : Int) : Bytes :=
  let magnitude := minimalBytes n.natAbs
  match magnitude.getLast? with
  | none => []
  | some top =>
    if top < 0x80 then
      if n < 0 then magnitude.dropLast ++ [top ||| 0x80] else magnitude
    else magnitude ++ [if n < 0 then 0x80 else 0x00]

def pushVector (b : Bytes) : CScript :=
  (if b.length < opPushData1.toNat then [UInt8.ofNat b.length]
   else if b.length ≤ 0xff then [opPushData1, UInt8.ofNat b.length]
   else if b.length ≤ 0xffff then opPushData2 :: leBytes 2 b.length
   else opPushData4 :: leBytes 4 b.length) ++ b

def pushInt64 (n : Int) : CScript :=
  if n = -1 ∨ (1 ≤ n ∧ n ≤ 16) then [UInt8.ofNat (n + (op1.toNat - 1)).toNat]
  else pushVector (getvch n)

theorem readBytes_getvch (n : Nat) : readBytes (getvch n) = n := by
  have nonneg : ¬ ((n : Int) < 0) := by omega
  have value := readBytes_minimalBytes n
  simp only [getvch, Int.natAbs_natCast, nonneg, if_false]
  cases last : (minimalBytes n).getLast? with
  | none =>
    have empty : minimalBytes n = [] := List.getLast?_eq_none_iff.mp last
    rw [empty] at value
    exact value
  | some top =>
    simp only
    split
    · exact value
    · rw [readBytes_append_zero, value]

theorem getvch_length {n : Int} {width : Nat} (small : n.natAbs < 256 ^ width) :
    (getvch n).length ≤ width + 1 := by
  have bytes := minimalBytes_length small
  simp only [getvch]
  cases last : (minimalBytes n.natAbs).getLast? with
  | none => simp
  | some top =>
    have nonempty : 0 < (minimalBytes n.natAbs).length := by
      rw [List.length_pos_iff]
      intro empty
      simp [empty] at last
    simp only
    split_ifs <;> simp <;> omega

theorem toNat_byte (small : n ≤ 0xff) : (UInt8.ofNat n).toNat = n :=
  UInt8.toNat_ofNat_of_lt (by show n < 256; omega)

theorem selfDelimiting_pushVector : SelfDelimiting pushVector (fun b => b.length ≤ 0xff) := by
  intro a b s t aShort bShort same
  have lengths : a.length = b.length ∧ a ++ s = b ++ t := by
    have aByte := toNat_byte aShort
    have bByte := toNat_byte bShort
    by_cases aDirect : a.length < opPushData1.toNat <;>
      by_cases bDirect : b.length < opPushData1.toNat <;>
      simp only [pushVector, aDirect, bDirect, aShort, bShort, if_true, if_false,
        List.cons_append, List.nil_append, List.cons.injEq] at same
    · exact ⟨by rw [← aByte, ← bByte, same.1], same.2⟩
    · have head := congrArg UInt8.toNat same.1
      omega
    · have head := congrArg UInt8.toNat same.1
      omega
    · exact ⟨by rw [← aByte, ← bByte, same.2.1], same.2.2⟩
  exact List.append_inj lengths.2 lengths.1

theorem pushVector_length (b : Bytes) : b.length ≤ (pushVector b).length := by simp [pushVector]

theorem pushVector_head {b : Bytes} (short : b.length ≤ 0xff) :
    ∃ head tail, pushVector b = head :: tail ∧ head.toNat ≤ opPushData1.toNat := by
  by_cases direct : b.length < opPushData1.toNat
  · refine ⟨UInt8.ofNat b.length, b, by simp [pushVector, direct], ?_⟩
    rw [toNat_byte short]
    omega
  · exact ⟨opPushData1, UInt8.ofNat b.length :: b, by simp [pushVector, direct, short], le_rfl⟩

/-- Two heights that both head one script are equal.  The bound on the length is
the coinbase script limit, which keeps every push in the two short forms. -/
theorem height_tag_unique {first second : Nat} {s t : CScript}
    (firstShort : (pushInt64 first).length ≤ 100) (secondShort : (pushInt64 second).length ≤ 100)
    (same : pushInt64 first ++ s = pushInt64 second ++ t) : first = second := by
  have smallForm : ∀ n : Nat, 1 ≤ n ∧ n ≤ 16 →
      pushInt64 n = [UInt8.ofNat (n + 0x50)] ∧ (UInt8.ofNat (n + 0x50)).toNat = n + 0x50 := by
    intro n small
    refine ⟨?_, toNat_byte (by omega)⟩
    have guard : (n : Int) = -1 ∨ (1 ≤ (n : Int) ∧ (n : Int) ≤ 16) := Or.inr (by omega)
    have code : ((n : Int) + (op1.toNat - 1)).toNat = n + 0x50 := by
      show ((n : Int) + ((0x51 : Nat) - 1)).toNat = n + 0x50
      omega
    simp only [pushInt64, guard, if_true, code]
  have longForm : ∀ n : Nat, ¬ (1 ≤ n ∧ n ≤ 16) → pushInt64 n = pushVector (getvch n) := by
    intro n large
    have guard : ¬ ((n : Int) = -1 ∨ (1 ≤ (n : Int) ∧ (n : Int) ≤ 16)) := by omega
    simp only [pushInt64, guard, if_false]
  have vectorShort : ∀ n : Nat, ¬ (1 ≤ n ∧ n ≤ 16) → (pushInt64 n).length ≤ 100 →
      (getvch n).length ≤ 0xff := by
    intro n large short
    have bound := pushVector_length (getvch n)
    rw [longForm n large] at short
    omega
  -- a small-integer opcode is at least 0x51, a pushed vector starts with at most 0x4c
  have clash : ∀ (m n : Nat) (u v : CScript), (1 ≤ m ∧ m ≤ 16) → ¬ (1 ≤ n ∧ n ≤ 16) →
      (pushInt64 n).length ≤ 100 → pushInt64 m ++ u = pushInt64 n ++ v → False := by
    intro m n u v small large short equal
    obtain ⟨head, tail, shape, headSmall⟩ := pushVector_head (vectorShort n large short)
    obtain ⟨form, code⟩ := smallForm m small
    rw [form, longForm n large, shape] at equal
    simp only [List.cons_append, List.cons.injEq] at equal
    rw [← equal.1, code] at headSmall
    have limit : opPushData1.toNat = 0x4c := rfl
    omega
  by_cases firstSmall : 1 ≤ first ∧ first ≤ 16 <;> by_cases secondSmall : 1 ≤ second ∧ second ≤ 16
  · obtain ⟨firstForm, firstCode⟩ := smallForm first firstSmall
    obtain ⟨secondForm, secondCode⟩ := smallForm second secondSmall
    rw [firstForm, secondForm] at same
    simp only [List.cons_append, List.cons.injEq] at same
    have codes := congrArg UInt8.toNat same.1
    omega
  · exact (clash first second s t firstSmall secondSmall secondShort same).elim
  · exact (clash second first t s secondSmall firstSmall firstShort same.symm).elim
  · rw [longForm first firstSmall, longForm second secondSmall] at same
    have vectors := (selfDelimiting_pushVector _ _ s t (vectorShort first firstSmall firstShort)
      (vectorShort second secondSmall secondShort) same).1
    rw [← readBytes_getvch first, ← readBytes_getvch second, vectors]

theorem pushInt64_length (fits : n < 2 ^ 31) : (pushInt64 n).length ≤ 100 := by
  have vector : (getvch n).length ≤ 5 := getvch_length (show (n : Int).natAbs < 256 ^ 4 by omega)
  have direct : (getvch n).length < opPushData1.toNat := vector.trans_lt (by decide)
  unfold pushInt64
  split
  · simp
  · simp only [pushVector, direct, if_true, List.length_append, List.length_singleton]
    omega

end SynergyData.Script
