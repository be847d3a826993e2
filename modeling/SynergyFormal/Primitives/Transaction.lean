import SynergyFormal.Primitives.Script
import Mathlib.Algebra.BigOperators.Group.List.Basic
import Mathlib.Algebra.Order.BigOperators.Group.List

/-!
# Transactions

The transaction classes of `main.h`, their wire format and the checks that need no
context.  A transaction hash is the hash of the serialized bytes, so what a hash
can distinguish is what `serialize` writes: a version-1 transaction does not carry
its comment or its productivity type.

`nDoS`, the misbehaviour score, is left out: it never decides a result.
-/

set_option autoImplicit false

namespace SynergyData.Transaction

open SynergyLib.Wire Script

abbrev Uint256 := BitVec 256

def coin : Int := 100000000
def cent : Int := 1000000
def maxMoney : Int := 10000000 * coin
def minTxFee : Int := 62500
def minRelayTxFee : Int := minTxFee
def maxBlockSize : Nat := 250000
def maxBlockSizeGen : Nat := maxBlockSize / 2
def maxBlockSigOps : Nat := maxBlockSize / 50
def maxTxCommentLen : Nat := 512
def commentFeePerChar : Int := 10000

def moneyRange (nValue : Int) : Bool := decide (0 ≤ nValue ∧ nValue ≤ maxMoney)

theorem moneyRange_iff {nValue : Int} :
    moneyRange nValue = true ↔ 0 ≤ nValue ∧ nValue ≤ maxMoney := by
  simp [moneyRange]

/-! ## The classes -/

structure CDiskTxPos where
  nFile : UInt32
  nBlockPos : UInt32
  nTxPos : UInt32
  deriving DecidableEq, Repr

def nullPos : CDiskTxPos := ⟨0xffffffff, 0, 0⟩

def CDiskTxPos.isNull (pos : CDiskTxPos) : Bool := pos.nFile == 0xffffffff

theorem nullPos_isNull : nullPos.isNull = true := by decide

structure COutPoint where
  hash : Uint256
  n : UInt32
  deriving DecidableEq, Repr

def COutPoint.isNull (o : COutPoint) : Bool := o.hash == 0 && o.n == 0xffffffff

structure CTxIn where
  prevout : COutPoint
  scriptSig : CScript
  nSequence : UInt32
  deriving DecidableEq, Repr

structure CTxOut where
  nValue : Int64
  scriptPubKey : CScript
  deriving DecidableEq, Repr

def CTxOut.isEmpty (txout : CTxOut) : Bool := txout.nValue == 0 && txout.scriptPubKey == []

structure CTransaction where
  nVersion : Int32
  nTime : UInt32
  vin : List CTxIn
  vout : List CTxOut
  nLockTime : UInt32
  strTxComment : Bytes
  nProdTypeID : UInt32
  deriving DecidableEq, Repr

def isCoinBase (tx : CTransaction) : Bool :=
  match tx.vin with
  | [txin] => txin.prevout.isNull && decide (1 ≤ tx.vout.length)
  | _ => false

/-- The coinstake is marked by an empty first output. -/
def isCoinStake (tx : CTransaction) : Bool :=
  match tx.vin, tx.vout with
  | txin :: _, first :: _ :: _ => !txin.prevout.isNull && first.isEmpty
  | _, _ => false

theorem not_isCoinStake_of_isCoinBase {tx : CTransaction} (base : isCoinBase tx = true) :
    isCoinStake tx = false := by
  unfold isCoinBase at base
  split at base
  · rename_i txin shape
    have nullInput : txin.prevout.isNull = true := by
      have both := base
      rw [Bool.and_eq_true] at both
      exact both.1
    unfold isCoinStake
    rw [shape]
    split
    · rename_i equal _
      simp only [List.cons.injEq] at equal
      rw [← equal.1, nullInput]
      rfl
    · rfl
  · cases base

/-- `operator==`: the productivity type is compared in no version, the comment from
version 2 on. -/
def operatorEq (a b : CTransaction) : Bool :=
  if 2 ≤ a.nVersion then
    a.nVersion == b.nVersion && a.nTime == b.nTime && a.vin == b.vin && a.vout == b.vout &&
      a.nLockTime == b.nLockTime && a.strTxComment == b.strTxComment
  else
    a.nVersion == b.nVersion && a.nTime == b.nTime && a.vin == b.vin && a.vout == b.vout &&
      a.nLockTime == b.nLockTime

/-! ## Serialization -/

def writeUint32 (n : UInt32) : Bytes := leBytes 4 n.toNat

def writeUint256 (n : Uint256) : Bytes := leBytes 32 n.toNat

def serializeTxIn (txin : CTxIn) : Bytes :=
  writeUint256 txin.prevout.hash ++ writeUint32 txin.prevout.n ++ byteString txin.scriptSig ++
    writeUint32 txin.nSequence

def serializeTxOut (txout : CTxOut) : Bytes :=
  leBytes 8 txout.nValue.toBitVec.toNat ++ byteString txout.scriptPubKey

def serializeVector {A : Type} (element : A → Bytes) (xs : List A) : Bytes :=
  compactSize xs.length ++ xs.flatMap element

def serialize (tx : CTransaction) : Bytes :=
  leBytes 4 tx.nVersion.toBitVec.toNat ++ writeUint32 tx.nTime ++
    serializeVector serializeTxIn tx.vin ++ serializeVector serializeTxOut tx.vout ++
    writeUint32 tx.nLockTime ++
    (if 2 ≤ tx.nVersion then byteString tx.strTxComment ++ writeUint32 tx.nProdTypeID else [])

def serializeSize (tx : CTransaction) : Nat := (serialize tx).length

/-- Every length in the transaction is a 64-bit size. -/
structure Addressable (tx : CTransaction) : Prop where
  inputs : tx.vin.length < 256 ^ 8 ∧ ∀ txin ∈ tx.vin, txin.scriptSig.length < 256 ^ 8
  outputs : tx.vout.length < 256 ^ 8 ∧ ∀ txout ∈ tx.vout, txout.scriptPubKey.length < 256 ^ 8
  comment : tx.strTxComment.length < 256 ^ 8

theorem selfDelimiting_writeUint32 : SelfDelimiting writeUint32 (fun _ => True) := by
  intro a b s t _ _ same
  obtain ⟨values, rests⟩ := leBytes_cancel a.toNat b.toNat s t (by have := a.toNat_lt; omega)
    (by have := b.toNat_lt; omega) same
  exact ⟨UInt32.toNat_inj.mp values, rests⟩

theorem selfDelimiting_writeUint256 : SelfDelimiting writeUint256 (fun _ => True) := by
  intro a b s t _ _ same
  obtain ⟨values, rests⟩ := leBytes_cancel a.toNat b.toNat s t (by have := a.isLt; omega)
    (by have := b.isLt; omega) same
  exact ⟨BitVec.eq_of_toNat_eq values, rests⟩

theorem selfDelimiting_serializeTxIn :
    SelfDelimiting serializeTxIn (fun txin => txin.scriptSig.length < 256 ^ 8) := by
  rintro ⟨⟨aHash, aN⟩, aSig, aSequence⟩ ⟨⟨bHash, bN⟩, bSig, bSequence⟩ s t aFits bFits same
  simp only [serializeTxIn, List.append_assoc] at same
  obtain ⟨hashes, same⟩ := selfDelimiting_writeUint256 _ _ _ _ trivial trivial same
  obtain ⟨ns, same⟩ := selfDelimiting_writeUint32 _ _ _ _ trivial trivial same
  obtain ⟨sigs, same⟩ := selfDelimiting_byteString aSig bSig _ _ aFits bFits same
  obtain ⟨sequences, same⟩ := selfDelimiting_writeUint32 _ _ _ _ trivial trivial same
  exact ⟨by rw [hashes, ns, sigs, sequences], same⟩

theorem selfDelimiting_serializeTxOut :
    SelfDelimiting serializeTxOut (fun txout => txout.scriptPubKey.length < 256 ^ 8) := by
  rintro ⟨aValue, aScript⟩ ⟨bValue, bScript⟩ s t aFits bFits same
  simp only [serializeTxOut, List.append_assoc] at same
  obtain ⟨values, same⟩ := leBytes_cancel aValue.toBitVec.toNat bValue.toBitVec.toNat _ _
    (by have := aValue.toBitVec.isLt; omega) (by have := bValue.toBitVec.isLt; omega) same
  have sameValue : aValue = bValue := Int64.toBitVec_inj.mp (BitVec.eq_of_toNat_eq values)
  obtain ⟨scripts, same⟩ := selfDelimiting_byteString aScript bScript _ _ aFits bFits same
  exact ⟨by rw [sameValue, scripts], same⟩

/-- What a serialization determines: every field, except that below version 2 the
comment and the productivity type are not written. -/
theorem serialize_inj {a b : CTransaction} (aFits : Addressable a) (bFits : Addressable b)
    (same : serialize a = serialize b) :
    a.nVersion = b.nVersion ∧ a.nTime = b.nTime ∧ a.vin = b.vin ∧ a.vout = b.vout ∧
      a.nLockTime = b.nLockTime ∧
      (2 ≤ a.nVersion → a.strTxComment = b.strTxComment ∧ a.nProdTypeID = b.nProdTypeID) := by
  have vectors := selfDelimiting_serializeTxIn.counted selfDelimiting_compactSize
  have outputs := selfDelimiting_serializeTxOut.counted selfDelimiting_compactSize
  simp only [serialize, List.append_assoc] at same
  obtain ⟨versions, same⟩ := leBytes_cancel a.nVersion.toBitVec.toNat b.nVersion.toBitVec.toNat _ _
    (by have := a.nVersion.toBitVec.isLt; omega) (by have := b.nVersion.toBitVec.isLt; omega) same
  have sameVersion : a.nVersion = b.nVersion :=
    Int32.toBitVec_inj.mp (BitVec.eq_of_toNat_eq versions)
  obtain ⟨times, same⟩ := selfDelimiting_writeUint32 _ _ _ _ trivial trivial same
  obtain ⟨vins, same⟩ := vectors _ _ _ _ aFits.inputs bFits.inputs same
  obtain ⟨vouts, same⟩ := outputs _ _ _ _ aFits.outputs bFits.outputs same
  obtain ⟨lockTimes, same⟩ := selfDelimiting_writeUint32 _ _ _ _ trivial trivial same
  refine ⟨sameVersion, times, vins, vouts, lockTimes, fun version => ?_⟩
  rw [if_pos version, if_pos (sameVersion ▸ version)] at same
  obtain ⟨comments, same⟩ := selfDelimiting_byteString _ _ _ _ aFits.comment bFits.comment same
  refine ⟨comments, ?_⟩
  exact (selfDelimiting_writeUint32 _ _ [] [] trivial trivial (by rw [same])).1

theorem operatorEq_of_serialize {a b : CTransaction} (aFits : Addressable a) (bFits : Addressable b)
    (same : serialize a = serialize b) : operatorEq a b = true := by
  obtain ⟨versions, times, vins, vouts, lockTimes, late⟩ := serialize_inj aFits bFits same
  by_cases version : 2 ≤ a.nVersion
  · simp [operatorEq, version, ← versions, times, vins, vouts, lockTimes, (late version).1]
  · simp [operatorEq, version, ← versions, times, vins, vouts, lockTimes]

end SynergyData.Transaction
