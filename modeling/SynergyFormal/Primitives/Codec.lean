import SynergyFormal.Lib.Stream
import SynergyFormal.Primitives.Block

/-!
# Reading transactions and blocks back

The `Unserialize` and `GetSerializeSize` sides of `serialize.h` for the classes of
`main.h`, over the two streams the node reads from: `CDataStream`, whose read position
is a 32-bit counter, and `CAutoFile`.  Sizes are `unsigned int`, so they count modulo
2^32.  An exception is `none`.

A vector is read element by element into default-constructed objects, so what a
version-1 transaction does not carry keeps the value the constructor gave it.
-/

set_option autoImplicit false

namespace SynergyData.Codec

open SynergyLib
open Wire Stream Transaction Block
open List hiding length

def maxSize : Nat := 0x02000000

/-! ## Streams -/

structure CDataStream where
  vch : Bytes
  nReadPos : UInt32

def CDataStream.unread (s : CDataStream) : Bytes := s.vch.drop s.nReadPos.toNat

def CDataStream.read (nSize : Nat) : StateT CDataStream Option Bytes := fun s =>
  let nReadPosNext := s.nReadPos + UInt32.ofNat nSize
  if s.vch.length < nReadPosNext.toNat then none
  -- the copy leaves the buffer, which takes a position counter that wrapped
  else if s.unread.length < nSize then none
  else if s.vch.length = nReadPosNext.toNat then some (s.unread.take nSize, ⟨[], 0⟩)
  else some (s.unread.take nSize, { s with nReadPos := nReadPosNext })

def dataStream : Source CDataStream := ⟨CDataStream.read⟩

structure CAutoFile where
  rest : Bytes

def CAutoFile.read (nSize : Nat) : StateT CAutoFile Option Bytes := fun file =>
  if file.rest.length < nSize then none
  else some (file.rest.take nSize, ⟨file.rest.drop nSize⟩)

def autoFile : Source CAutoFile := ⟨CAutoFile.read⟩

structure CDataStream.Holds (s : CDataStream) (room : Nat) (bytes : Bytes) : Prop where
  unread : s.unread = bytes
  position : s.nReadPos.toNat ≤ s.vch.length
  counter : s.nReadPos.toNat + room < 2 ^ 32

def CAutoFile.Holds (file : CAutoFile) (_ : Nat) (bytes : Bytes) : Prop := file.rest = bytes

theorem dataStream_delivers : Delivers dataStream CDataStream.Holds := by
  rintro bytes ⟨vch, nReadPos⟩ room rest ⟨offered, position, counter⟩ fits
  simp only [CDataStream.unread] at offered position counter
  have next : (nReadPos + UInt32.ofNat bytes.length).toNat = nReadPos.toNat + bytes.length := by
    rw [UInt32.toNat_add, UInt32.toNat_ofNat']
    omega
  have length : vch.length = nReadPos.toNat + bytes.length + rest.length := by
    have dropped := congrArg List.length offered
    rw [length_drop, length_append] at dropped
    omega
  have front : (vch.drop nReadPos.toNat).take bytes.length = bytes := by
    rw [offered, take_left]
  have present : ¬ vch.length < nReadPos.toNat + bytes.length := by omega
  have enough : ¬ (vch.drop nReadPos.toNat).length < bytes.length := by rw [length_drop]; omega
  by_cases last : vch.length = nReadPos.toNat + bytes.length
  · have empty : rest = [] := eq_nil_of_length_eq_zero (by omega)
    refine ⟨⟨[], 0⟩, ?_, ⟨by simp [CDataStream.unread, empty], by simp, by simp; omega⟩⟩
    show CDataStream.read bytes.length ⟨vch, nReadPos⟩ = some (bytes, ⟨[], 0⟩)
    simp only [CDataStream.read, CDataStream.unread, next]
    rw [if_neg present, if_neg enough, if_pos last, front]
  · refine ⟨⟨vch, nReadPos + UInt32.ofNat bytes.length⟩, ?_, ⟨?_, ?_, ?_⟩⟩
    · show CDataStream.read bytes.length ⟨vch, nReadPos⟩ = _
      simp only [CDataStream.read, CDataStream.unread, next]
      rw [if_neg present, if_neg enough, if_neg last, front]
    · show vch.drop (nReadPos + UInt32.ofNat bytes.length).toNat = rest
      rw [next, ← drop_drop, offered, drop_left]
    · show (nReadPos + UInt32.ofNat bytes.length).toNat ≤ vch.length
      omega
    · show (nReadPos + UInt32.ofNat bytes.length).toNat + (room - bytes.length) < 2 ^ 32
      omega

theorem autoFile_delivers : Delivers autoFile CAutoFile.Holds := by
  rintro bytes ⟨held⟩ room rest offered _
  have shape : held = bytes ++ rest := offered
  subst shape
  refine ⟨⟨rest⟩, ?_, rfl⟩
  show CAutoFile.read bytes.length ⟨bytes ++ rest⟩ = some (bytes, ⟨rest⟩)
  have enough : ¬ (bytes ++ rest).length < bytes.length := by rw [length_append]; omega
  simp only [CAutoFile.read, enough, if_false, take_left, drop_left]

/-! ## Unserialize -/

section Unserialize
variable {S : Type} (source : Source S)

def readUint32 : StateT S Option UInt32 := do return UInt32.ofNat (← readLe source 4)

def readInt32 : StateT S Option Int32 := do
  return Int32.ofBitVec (BitVec.ofNat 32 (← readLe source 4))

def readInt64 : StateT S Option Int64 := do
  return Int64.ofBitVec (BitVec.ofNat 64 (← readLe source 8))

def readUint256 : StateT S Option Uint256 := do return BitVec.ofNat 256 (← readLe source 32)

/-- The size that follows the marker byte. -/
def readSizeRet (chSize : Nat) : StateT S Option Nat :=
  if chSize < 253 then return chSize
  else if chSize = 253 then readLe source 2
  else if chSize = 254 then readLe source 4
  else readLe source 8

def readCompactSize : StateT S Option Nat := do
  let chSize ← readLe source 1
  let nSizeRet ← readSizeRet source chSize
  if maxSize < nSizeRet then failure else return nSizeRet

def unserializeString : StateT S Option Bytes := do
  let nSize ← readCompactSize source
  if nSize = 0 then return [] else source.read nSize

/-- `std::vector<unsigned char>` and `CScript`: at most 5000000 bytes in one read. -/
def unserializeBytes : StateT S Option Bytes := do
  let nSize ← readCompactSize source
  readBlocks source 5000000 nSize nSize

def unserializeVector {A : Type} (element : StateT S Option A) : StateT S Option (List A) := do
  let nSize ← readCompactSize source
  readMany element nSize

def unserializeTxIn : StateT S Option CTxIn := do
  let hash ← readUint256 source
  let n ← readUint32 source
  let scriptSig ← unserializeBytes source
  let nSequence ← readUint32 source
  return ⟨⟨hash, n⟩, scriptSig, nSequence⟩

def unserializeTxOut : StateT S Option CTxOut := do
  let nValue ← readInt64 source
  let scriptPubKey ← unserializeBytes source
  return ⟨nValue, scriptPubKey⟩

def snrgNone : UInt32 := 0

/-- The object the `CTransaction` constructor leaves. -/
def nullTx (adjustedTime : UInt32) (nBestHeight : Nat) : CTransaction where
  nVersion := if lastPowBlock ≤ nBestHeight then 2 else 1
  nTime := adjustedTime
  vin := []
  vout := []
  nLockTime := 0
  strTxComment := []
  nProdTypeID := snrgNone

def unserializeTx (object : CTransaction) : StateT S Option CTransaction := do
  let nVersion ← readInt32 source
  let nTime ← readUint32 source
  let vin ← unserializeVector source (unserializeTxIn source)
  let vout ← unserializeVector source (unserializeTxOut source)
  let nLockTime ← readUint32 source
  let tx := { object with nVersion, nTime, vin, vout, nLockTime }
  if 2 ≤ nVersion then do
    let strTxComment ← unserializeString source
    let nProdTypeID ← readUint32 source
    return { tx with strTxComment, nProdTypeID }
  else return tx

def serNetwork : UInt32 := 1
def serDisk : UInt32 := 2
def serGetHash : UInt32 := 4
def serBlockHeaderOnly : UInt32 := 0x20000

/-- The header alone is written for a hash and on request. -/
def headerOnly (nType : UInt32) : Bool := nType &&& (serGetHash ||| serBlockHeaderOnly) != 0

def unserializeBlock (object : CTransaction) (nType : UInt32) : StateT S Option CBlock := do
  let nVersion ← readInt32 source
  let hashPrevBlock ← readUint256 source
  let hashMerkleRoot ← readUint256 source
  let nTime ← readUint32 source
  let nBits ← readUint32 source
  let nNonce ← readUint32 source
  if headerOnly nType then
    return ⟨nVersion, hashPrevBlock, hashMerkleRoot, nTime, nBits, nNonce, [], []⟩
  else do
    let vtx ← unserializeVector source (unserializeTx source object)
    let vchBlockSig ← unserializeBytes source
    return ⟨nVersion, hashPrevBlock, hashMerkleRoot, nTime, nBits, nNonce, vtx, vchBlockSig⟩

end Unserialize

def serializeBlockAs (nType : UInt32) (b : CBlock) : Bytes :=
  if headerOnly nType then serializeHeader b else serializeBlock b

/-! ## GetSerializeSize -/

def getSizeOfCompactSize (nSize : Nat) : Nat :=
  if nSize < 253 then 1
  else if nSize ≤ 0xffff then 1 + 2
  else if nSize ≤ 0xffffffff then 1 + 4
  else 1 + 8

/-- Strings and vectors of bytes; the sum is cut to `unsigned int` on return. -/
def bytesSize (bytes : Bytes) : UInt32 :=
  UInt32.ofNat (getSizeOfCompactSize bytes.length + bytes.length)

def vectorSize {A : Type} (element : A → UInt32) (xs : List A) : UInt32 :=
  xs.foldl (fun nSize x => nSize + element x) (UInt32.ofNat (getSizeOfCompactSize xs.length))

def txInSize (txin : CTxIn) : UInt32 := 36 + bytesSize txin.scriptSig + 4

def txOutSize (txout : CTxOut) : UInt32 := 8 + bytesSize txout.scriptPubKey

def getSerializeSizeTx (tx : CTransaction) : UInt32 :=
  let nSerSize := 4 + 4 + vectorSize txInSize tx.vin + vectorSize txOutSize tx.vout + 4
  if 2 ≤ tx.nVersion then nSerSize + bytesSize tx.strTxComment + 4 else nSerSize

def getSerializeSizeBlock (nType : UInt32) (b : CBlock) : UInt32 :=
  let nSerSize := 4 + 32 + 32 + 4 + 4 + 4
  if headerOnly nType then nSerSize
  else nSerSize + vectorSize getSerializeSizeTx b.vtx + bytesSize b.vchBlockSig

theorem compactSize_length {nSize : Nat} :
    (compactSize nSize).length = getSizeOfCompactSize nSize := by
  unfold compactSize getSizeOfCompactSize
  split_ifs <;> simp [Nat.add_comm]

theorem bytesSize_eq (bytes : Bytes) :
    bytesSize bytes = UInt32.ofNat (byteString bytes).length := by
  rw [bytesSize, byteString, length_append, compactSize_length]

theorem vectorSize_eq {A : Type} (element : A → UInt32) (encode : A → Bytes)
    (each : ∀ x, element x = UInt32.ofNat (encode x).length) (xs : List A) :
    vectorSize element xs = UInt32.ofNat (serializeVector encode xs).length := by
  have sum : ∀ (ys : List A) (start : Nat),
      ys.foldl (fun nSize x => nSize + element x) (UInt32.ofNat start) =
        UInt32.ofNat (start + (ys.flatMap encode).length) := by
    intro ys
    induction ys with
    | nil => intro start; simp
    | cons y ys ih =>
      intro start
      rw [foldl_cons, each y, ← UInt32.ofNat_add, ih, flatMap_cons, length_append, Nat.add_assoc]
  rw [vectorSize, sum, serializeVector, length_append, compactSize_length]

theorem txInSize_eq (txin : CTxIn) : txInSize txin = UInt32.ofNat (serializeTxIn txin).length := by
  rw [txInSize, bytesSize_eq, serializeTxIn]
  simp only [length_append, writeUint256, writeUint32, leBytes_length, UInt32.ofNat_add]
  rfl

theorem txOutSize_eq (txout : CTxOut) :
    txOutSize txout = UInt32.ofNat (serializeTxOut txout).length := by
  rw [txOutSize, bytesSize_eq, serializeTxOut]
  simp only [length_append, leBytes_length, UInt32.ofNat_add]
  rfl

theorem getSerializeSizeTx_eq (tx : CTransaction) :
    getSerializeSizeTx tx = UInt32.ofNat (serialize tx).length := by
  rw [getSerializeSizeTx, vectorSize_eq txInSize serializeTxIn txInSize_eq,
    vectorSize_eq txOutSize serializeTxOut txOutSize_eq, bytesSize_eq, serialize]
  split <;> simp only [length_append, writeUint32, leBytes_length, UInt32.ofNat_add, length_nil,
      UInt32.add_assoc] <;> rfl

theorem getSerializeSizeBlock_eq (nType : UInt32) (b : CBlock) :
    getSerializeSizeBlock nType b = UInt32.ofNat (serializeBlockAs nType b).length := by
  have header : (serializeHeader b).length = 80 := by
    simp [serializeHeader, writeUint256, writeUint32]
  rw [getSerializeSizeBlock, vectorSize_eq getSerializeSizeTx serialize getSerializeSizeTx_eq,
    bytesSize_eq, serializeBlockAs]
  split
  · rw [header]; rfl
  · simp only [serializeBlock, length_append, UInt32.ofNat_add, header]
    rfl

/-! ## Round trips -/

/-- Every vector and string is one that `ReadCompactSize` lets through, and a transaction
below version 2 has nothing that it does not write. -/
structure Encodable (tx : CTransaction) : Prop where
  inputs : tx.vin.length ≤ maxSize ∧ ∀ txin ∈ tx.vin, txin.scriptSig.length ≤ maxSize
  outputs : tx.vout.length ≤ maxSize ∧ ∀ txout ∈ tx.vout, txout.scriptPubKey.length ≤ maxSize
  comment : tx.strTxComment.length ≤ maxSize
  legacy : tx.nVersion < 2 → tx.strTxComment = [] ∧ tx.nProdTypeID = snrgNone

structure EncodableBlock (b : CBlock) : Prop where
  count : b.vtx.length ≤ maxSize
  transactions : ∀ tx ∈ b.vtx, Encodable tx
  signature : b.vchBlockSig.length ≤ maxSize

section Readers
variable {S : Type} {source : Source S} {holds : S → Nat → Bytes → Prop}
  (delivers : Delivers source holds)
include delivers

theorem reads_readUint32 {n : UInt32} : Reads holds (readUint32 source) (writeUint32 n) n := by
  have value := (reads_readLe delivers 4 n.toNat (by have := n.toNat_lt; omega)).map UInt32.ofNat
  rwa [UInt32.ofNat_toNat] at value

theorem reads_readUint256 {n : Uint256} : Reads holds (readUint256 source) (writeUint256 n) n := by
  have value := (reads_readLe delivers 32 n.toNat (by have := n.isLt; omega)).map (BitVec.ofNat 256)
  rwa [BitVec.ofNat_toNat, BitVec.setWidth_eq] at value

theorem reads_readInt32 {n : Int32} :
    Reads holds (readInt32 source) (leBytes 4 n.toBitVec.toNat) n := by
  have value := (reads_readLe delivers 4 n.toBitVec.toNat (by have := n.toBitVec.isLt; omega)).map
    fun word => Int32.ofBitVec (BitVec.ofNat 32 word)
  rwa [BitVec.ofNat_toNat, BitVec.setWidth_eq, Int32.ofBitVec_toBitVec] at value

theorem reads_readInt64 {n : Int64} :
    Reads holds (readInt64 source) (leBytes 8 n.toBitVec.toNat) n := by
  have value := (reads_readLe delivers 8 n.toBitVec.toNat (by have := n.toBitVec.isLt; omega)).map
    fun word => Int64.ofBitVec (BitVec.ofNat 64 word)
  rwa [BitVec.ofNat_toNat, BitVec.setWidth_eq, Int64.ofBitVec_toBitVec] at value

theorem reads_readCompactSize {nSize : Nat} (fits : nSize ≤ maxSize) :
    Reads holds (readCompactSize source) (compactSize nSize) nSize := by
  have small : nSize ≤ 0x02000000 := fits
  have checked : Reads holds
      (if maxSize < nSize then failure else Pure.pure nSize : StateT S Option Nat) [] nSize := by
    rw [if_neg (by omega)]
    exact Reads.pure nSize
  have announced : ∀ (marker : Nat) (after : Bytes), marker < 256 →
      Reads holds (readSizeRet source marker) after nSize →
      Reads holds (readCompactSize source) (leBytes 1 marker ++ (after ++ [])) nSize :=
    fun marker after byte sized => (reads_readLe delivers 1 marker byte).bind (sized.bind checked)
  unfold compactSize
  split_ifs with one two four
  · refine announced nSize [] (by omega) ?_
    rw [readSizeRet, if_pos one]
    exact Reads.pure nSize
  · rw [← append_nil (leBytes 2 nSize)]
    exact announced 253 _ (by omega) (reads_readLe delivers 2 nSize (by omega))
  · rw [← append_nil (leBytes 4 nSize)]
    exact announced 254 _ (by omega) (reads_readLe delivers 4 nSize (by omega))
  · omega

theorem reads_unserializeString {bytes : Bytes} (fits : bytes.length ≤ maxSize) :
    Reads holds (unserializeString source) (byteString bytes) bytes := by
  refine (reads_readCompactSize delivers fits).bind ?_
  split
  · rename_i empty
    rw [eq_nil_of_length_eq_zero empty]
    exact Reads.pure []
  · exact delivers bytes

theorem reads_unserializeBytes {bytes : Bytes} (fits : bytes.length ≤ maxSize) :
    Reads holds (unserializeBytes source) (byteString bytes) bytes :=
  (reads_readCompactSize delivers fits).bind (reads_readBlocks delivers (by omega) bytes le_rfl)

theorem reads_unserializeVector {A : Type} {element : StateT S Option A} {encode : A → Bytes}
    {xs : List A} (fits : xs.length ≤ maxSize) (each : ∀ x ∈ xs, Reads holds element (encode x) x) :
    Reads holds (unserializeVector source element) (serializeVector encode xs) xs :=
  (reads_readCompactSize delivers fits).bind (Reads.many xs each)

theorem reads_unserializeTxIn {txin : CTxIn} (fits : txin.scriptSig.length ≤ maxSize) :
    Reads holds (unserializeTxIn source) (serializeTxIn txin) txin := by
  simp only [serializeTxIn, append_assoc]
  refine (reads_readUint256 delivers).bind ?_
  refine (reads_readUint32 delivers).bind ?_
  refine (reads_unserializeBytes delivers fits).bind ?_
  exact (reads_readUint32 delivers).map _

theorem reads_unserializeTxOut {txout : CTxOut} (fits : txout.scriptPubKey.length ≤ maxSize) :
    Reads holds (unserializeTxOut source) (serializeTxOut txout) txout := by
  refine (reads_readInt64 delivers).bind ?_
  exact (reads_unserializeBytes delivers fits).map _

theorem reads_unserializeTx (object tx : CTransaction) (blank : object.strTxComment = [])
    (untyped : object.nProdTypeID = snrgNone) (encodable : Encodable tx) :
    Reads holds (unserializeTx source object) (serialize tx) tx := by
  simp only [serialize, append_assoc]
  refine (reads_readInt32 delivers).bind ?_
  refine (reads_readUint32 delivers).bind ?_
  refine (reads_unserializeVector delivers encodable.inputs.1 fun txin member =>
    reads_unserializeTxIn delivers (encodable.inputs.2 txin member)).bind ?_
  refine (reads_unserializeVector delivers encodable.outputs.1 fun txout member =>
    reads_unserializeTxOut delivers (encodable.outputs.2 txout member)).bind ?_
  refine (reads_readUint32 delivers).bind ?_
  split
  · refine (reads_unserializeString delivers encodable.comment).bind ?_
    exact (reads_readUint32 delivers).map _
  · rename_i old
    obtain ⟨noComment, noType⟩ := encodable.legacy (Int32.not_le.mp old)
    have same : ({ object with
        nVersion := tx.nVersion, nTime := tx.nTime, vin := tx.vin, vout := tx.vout,
        nLockTime := tx.nLockTime } : CTransaction) = tx := by
      rw [blank, untyped, ← noComment, ← noType]
    simp only [same]
    exact Reads.pure tx

theorem reads_unserializeBlock {object : CTransaction} (blank : object.strTxComment = [])
    (untyped : object.nProdTypeID = snrgNone) {nType : UInt32} (whole : headerOnly nType = false)
    {b : CBlock} (encodable : EncodableBlock b) :
    Reads holds (unserializeBlock source object nType) (serializeBlock b) b := by
  simp only [serializeBlock, serializeHeader, append_assoc]
  refine (reads_readInt32 delivers).bind ?_
  refine (reads_readUint256 delivers).bind ?_
  refine (reads_readUint256 delivers).bind ?_
  refine (reads_readUint32 delivers).bind ?_
  refine (reads_readUint32 delivers).bind ?_
  refine (reads_readUint32 delivers).bind ?_
  rw [if_neg (by rw [whole]; decide)]
  refine (reads_unserializeVector delivers encodable.count fun tx member =>
    reads_unserializeTx delivers object tx blank untyped (encodable.transactions tx member)).bind ?_
  exact (reads_unserializeBytes delivers encodable.signature).map _

end Readers

/-- Reading the bytes back from either stream yields the object and leaves exactly what
follows them. -/
structure RoundTrips {A : Type} (fromData : StateT CDataStream Option A)
    (fromFile : StateT CAutoFile Option A) (bytes : Bytes) (a : A) : Prop where
  data : ∀ rest, ∃ s, fromData.run ⟨bytes ++ rest, 0⟩ = some (a, s) ∧ s.unread = rest
  file : ∀ rest, fromFile.run ⟨bytes ++ rest⟩ = some (a, ⟨rest⟩)

theorem roundTrips_of_reads {A : Type} {fromData : StateT CDataStream Option A}
    {fromFile : StateT CAutoFile Option A} {bytes : Bytes} {a : A}
    (data : Reads CDataStream.Holds fromData bytes a)
    (file : Reads CAutoFile.Holds fromFile bytes a)
    (short : bytes.length < 2 ^ 32) : RoundTrips fromData fromFile bytes a := by
  refine ⟨fun rest => ?_, fun rest => ?_⟩
  · obtain ⟨s, run, left⟩ := data ⟨bytes ++ rest, 0⟩ bytes.length rest
      ⟨by simp [CDataStream.unread], by simp, by simpa using short⟩ le_rfl
    exact ⟨s, run, left.unread⟩
  · obtain ⟨⟨left⟩, run, same⟩ := file ⟨bytes ++ rest⟩ bytes.length rest rfl le_rfl
    have remaining : left = rest := same
    rw [run, remaining]

theorem toNat_size {bytes : Bytes} (short : bytes.length < 2 ^ 32) :
    (UInt32.ofNat bytes.length).toNat = bytes.length := by
  rw [UInt32.toNat_ofNat']
  exact Nat.mod_eq_of_lt short

theorem maxSize_lt : maxSize < 256 ^ 8 := by decide

theorem Encodable.addressable {tx : CTransaction} (encodable : Encodable tx) : Addressable tx where
  inputs := ⟨encodable.inputs.1.trans_lt maxSize_lt,
    fun txin member => (encodable.inputs.2 txin member).trans_lt maxSize_lt⟩
  outputs := ⟨encodable.outputs.1.trans_lt maxSize_lt,
    fun txout member => (encodable.outputs.2 txout member).trans_lt maxSize_lt⟩
  comment := encodable.comment.trans_lt maxSize_lt

theorem Encodable.serialize_injective {a b : CTransaction} (aEncodable : Encodable a)
    (bEncodable : Encodable b) (same : serialize a = serialize b) : a = b := by
  obtain ⟨versions, times, vins, vouts, lockTimes, late⟩ :=
    serialize_inj aEncodable.addressable bEncodable.addressable same
  have extras : a.strTxComment = b.strTxComment ∧ a.nProdTypeID = b.nProdTypeID := by
    by_cases version : 2 ≤ a.nVersion
    · exact late version
    · have aOld : a.nVersion < 2 := Int32.not_le.mp version
      obtain ⟨aComment, aType⟩ := aEncodable.legacy aOld
      obtain ⟨bComment, bType⟩ := bEncodable.legacy (versions ▸ aOld)
      exact ⟨aComment.trans bComment.symm, aType.trans bType.symm⟩
  cases a
  cases b
  simp_all

/-- Transactions and blocks shorter than 2^32 bytes are read back field by field, and
their size is the number of bytes written. -/
theorem codecs_round_trip (adjustedTime : UInt32) (nBestHeight : Nat) :
    (∀ tx, Encodable tx → (serialize tx).length < 2 ^ 32 →
      RoundTrips (unserializeTx dataStream (nullTx adjustedTime nBestHeight))
          (unserializeTx autoFile (nullTx adjustedTime nBestHeight)) (serialize tx) tx ∧
        (getSerializeSizeTx tx).toNat = (serialize tx).length) ∧
    (∀ nType b, nType = serNetwork ∨ nType = serDisk → EncodableBlock b →
      (serializeBlockAs nType b).length < 2 ^ 32 →
      RoundTrips (unserializeBlock dataStream (nullTx adjustedTime nBestHeight) nType)
          (unserializeBlock autoFile (nullTx adjustedTime nBestHeight) nType)
          (serializeBlockAs nType b) b ∧
        (getSerializeSizeBlock nType b).toNat = (serializeBlockAs nType b).length) ∧
    ∀ a b, Encodable a → Encodable b → serialize a = serialize b → a = b := by
  refine ⟨fun tx encodable short => ⟨?_, ?_⟩, fun nType b kind encodable short => ⟨?_, ?_⟩,
    fun a b aEncodable bEncodable same => aEncodable.serialize_injective bEncodable same⟩
  · exact roundTrips_of_reads (reads_unserializeTx dataStream_delivers _ tx rfl rfl encodable)
      (reads_unserializeTx autoFile_delivers _ tx rfl rfl encodable) short
  · rw [getSerializeSizeTx_eq, toNat_size short]
  · have whole : headerOnly nType = false := by rcases kind with rfl | rfl <;> decide
    have bytes : serializeBlockAs nType b = serializeBlock b := by rw [serializeBlockAs, whole]; rfl
    rw [bytes] at short ⊢
    exact roundTrips_of_reads (reads_unserializeBlock dataStream_delivers rfl rfl whole encodable)
      (reads_unserializeBlock autoFile_delivers rfl rfl whole encodable) short
  · rw [getSerializeSizeBlock_eq, toNat_size short]

def smallTx : CTransaction where
  nVersion := 2
  nTime := 1440000000
  vin := [⟨⟨7, 1⟩, [0x51], 0xffffffff⟩]
  vout := [⟨5, [0x52, 0x53]⟩]
  nLockTime := 0
  strTxComment := [0x68, 0x69]
  nProdTypeID := 3

def smallBlock : CBlock := ⟨6, 1, 2, 1440000000, 0x1d00ffff, 9, [smallTx, smallTx], [0x30]⟩

theorem encodable_smallTx : Encodable smallTx :=
  ⟨by decide, by decide, by decide, by decide⟩

theorem codecs_round_trip_small :
    (RoundTrips (unserializeTx dataStream (nullTx 0 0)) (unserializeTx autoFile (nullTx 0 0))
        (serialize smallTx) smallTx ∧
      (getSerializeSizeTx smallTx).toNat = (serialize smallTx).length) ∧
    RoundTrips (unserializeBlock dataStream (nullTx 0 0) serDisk)
        (unserializeBlock autoFile (nullTx 0 0) serDisk) (serializeBlockAs serDisk smallBlock)
        smallBlock ∧
      (getSerializeSizeBlock serDisk smallBlock).toNat =
        (serializeBlockAs serDisk smallBlock).length := by
  obtain ⟨transactions, blocks, _⟩ := codecs_round_trip 0 0
  have block : EncodableBlock smallBlock :=
    ⟨by decide, by simpa [smallBlock] using encodable_smallTx, by decide⟩
  exact ⟨transactions smallTx encodable_smallTx (by decide +kernel),
    blocks serDisk smallBlock (Or.inr rfl) block (by decide +kernel)⟩

/-! ## Sizes beyond 32 bits -/

/-- 128 scripts of the largest size that can be read. -/
def giantTx : CTransaction where
  nVersion := 1
  nTime := 0
  vin := List.replicate 128 ⟨⟨0, 0⟩, List.replicate maxSize 0, 0⟩
  vout := []
  nLockTime := 0
  strTxComment := []
  nProdTypeID := snrgNone

theorem giantTx_length : 2 ^ 32 ≤ (serialize giantTx).length := by
  have script : maxSize ≤ (serializeTxIn ⟨⟨0, 0⟩, replicate maxSize 0, 0⟩).length := by
    simp only [serializeTxIn, byteString, length_append, length_replicate]
    omega
  have inputs : 128 * maxSize ≤ (giantTx.vin.flatMap serializeTxIn).length := by
    rw [giantTx, length_flatMap, map_replicate, sum_replicate_nat]
    exact Nat.mul_le_mul_left 128 script
  have bytes : 128 * maxSize = 2 ^ 32 := by decide
  simp only [serialize, serializeVector, length_append]
  omega

theorem giantTx_size_wraps :
    Encodable giantTx ∧ (getSerializeSizeTx giantTx).toNat ≠ (serialize giantTx).length := by
  refine ⟨⟨⟨?_, ?_⟩, ⟨by simp [giantTx], by simp [giantTx]⟩, by simp [giantTx],
    fun _ => ⟨rfl, rfl⟩⟩, ?_⟩
  · rw [giantTx, length_replicate]
    decide
  · intro txin member
    rw [(mem_replicate.mp member).2, length_replicate]
  · have long := giantTx_length
    have bound := (getSerializeSizeTx giantTx).toNat_lt
    omega

end SynergyData.Codec
