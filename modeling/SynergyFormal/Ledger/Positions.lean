import SynergyFormal.Ledger.SpentIndex
import SynergyFormal.Primitives.Codec

/-!
# Recorded positions of transactions

`WriteToDisk` appends a block to a file, `ConnectBlock` computes from `nBlockPos` where its
transactions start, and `CTransaction::ReadFromDisk` seeks there.  All positions stay below
2 GiB, since `AppendBlockFile` turns to a new file before.
-/

set_option autoImplicit false

namespace SynergyLedger.Positions

open SynergyLib SynergyData
open Wire Stream SynergyLib.Tree OutputLedger Transaction CheckTransaction Block Codec TxDB Inputs
  ConnectBlock SpentIndex

/-- `AppendBlockFile` takes this file. -/
def Appendable (file : Bytes) : Prop := file.length < 0x7f000000 - maxSize

/-- The file after `WriteToDisk` and `nBlockPosRet`. -/
def writeToDisk (pchMessageStart : UInt32) (file : Bytes) (b : CBlock) : Bytes × UInt32 :=
  let fileout := file ++ writeUint32 pchMessageStart ++ writeUint32 (getSerializeSizeBlock serDisk b)
  (fileout ++ serializeBlockAs serDisk b, UInt32.ofNat fileout.length)

/-- What stands in that file before transaction `i`. -/
def bytesBefore (pchMessageStart : UInt32) (file : Bytes) (b : CBlock) (i : Nat) : Bytes :=
  file ++ writeUint32 pchMessageStart ++ writeUint32 (getSerializeSizeBlock serDisk b) ++
    serializeHeader b ++ compactSize b.vtx.length ++ (b.vtx.take i).flatMap serialize

/-- `CTransaction::ReadFromDisk` into `object`. -/
def readFromDisk (object : CTransaction) (file : Bytes) (pos : CDiskTxPos) : Option CTransaction :=
  ((unserializeTx autoFile object).run ⟨file.drop pos.nTxPos.toNat⟩).map Prod.fst

/-- `CBlock()`. -/
def nullBlock : CBlock := ⟨6, 0, 0, 0, 0, 0, [], []⟩

theorem firstTxPos_eq {pindex : CBlockIndex} {b : CBlock} : firstTxPos pindex b =
    (value pindex).nBlockPos + getSerializeSizeBlock serDisk nullBlock -
      UInt32.ofNat (2 * getSizeOfCompactSize 0) + UInt32.ofNat (getSizeOfCompactSize b.vtx.length) := by
  have null : getSerializeSizeBlock serDisk nullBlock =
      UInt32.ofNat (2 * getSizeOfCompactSize 0) + 80 := rfl
  rw [firstTxPos, compactSize_length, null, UInt32.ofNat_add]
  grind

theorem txPositions_getElem {nFile nBlockPos : UInt32} {tx : CTransaction}
    {txs : List CTransaction} : ∀ (i : Nat) (nTxPos : UInt32), txs[i]? = some tx →
      (tx, ⟨nFile, nBlockPos, nTxPos + UInt32.ofNat ((txs.take i).flatMap serialize).length⟩) ∈
        txPositions nFile nBlockPos nTxPos txs := by
  induction txs with
  | nil => simp
  | cons first txs ih =>
    intro i nTxPos found
    cases i with
    | zero => simp_all [txPositions]
    | succ i =>
      have later := ih i (nTxPos + UInt32.ofNat (serializeSize first)) (by simpa using found)
      rw [List.take_succ_cons, List.flatMap_cons, List.length_append, UInt32.ofNat_add,
        ← UInt32.add_assoc]
      exact List.mem_cons_of_mem _ later

/-- What the disk keeps of a transaction: all of it, except that one of version 1 has no comment
and no product type there. -/
def written (tx : CTransaction) : CTransaction :=
  if 2 ≤ tx.nVersion then tx else { tx with strTxComment := [], nProdTypeID := snrgNone }

theorem serialize_written {tx : CTransaction} : serialize (written tx) = serialize tx := by
  unfold written
  split_ifs with new
  · rfl
  · simp [serialize, new]

theorem encodable_written {tx : CTransaction} (checked : Checked tx) : Encodable (written tx) := by
  have small : maxBlockSize ≤ maxSize := by decide
  obtain ⟨⟨vin, scriptSigs⟩, ⟨vout, scriptPubKeys⟩, comment⟩ := checked.lengths
  have inputs := fun txin member => (scriptSigs txin member).trans small
  have outputs := fun txout member => (scriptPubKeys txout member).trans small
  unfold written
  split_ifs with new
  · exact ⟨⟨vin.trans small, inputs⟩, ⟨vout.trans small, outputs⟩, comment.trans small,
      fun old => absurd new (Int32.not_le.mpr old)⟩
  · exact ⟨⟨vin.trans small, inputs⟩, ⟨vout.trans small, outputs⟩, Nat.zero_le _,
      fun _ => ⟨rfl, rfl⟩⟩

/-- The position stored for a transaction of a block that was written and then connected is the
offset of its bytes, and reading there gives it back. -/
theorem positions_exact (env : Env) (adjustedTime : Int) (pool : PoolLookup) (ledger next : Ledger)
    (b : CBlock) (pindex : CBlockIndex) (pchMessageStart : UInt32) (file later : Bytes)
    (nTime : UInt32) (nBestHeight : Nat) (appendable : Appendable file)
    (placed : (value pindex).nBlockPos = (writeToDisk pchMessageStart file b).2)
    (connected : connectBlock env adjustedTime pool ledger b pindex = some next)
    (i : Nat) (tx : CTransaction) (found : b.vtx[i]? = some tx) :
    ∃ entry rest, txView next.txdb (getTxHash env tx) = some entry ∧
      entry.pos.nFile = (value pindex).nFile ∧
      (writeToDisk pchMessageStart file b).1 ++ later =
        bytesBefore pchMessageStart file b i ++ (serialize tx ++ rest) ∧
      entry.pos.nTxPos.toNat = (bytesBefore pchMessageStart file b i).length ∧
      readFromDisk (nullTx nTime nBestHeight)
        ((writeToDisk pchMessageStart file b).1 ++ later) entry.pos = some (written tx) := by
  obtain ⟨checked, _⟩ := connectBlock_cases connected
  have names : ((blockTxs pindex b).map fun x => getTxHash env x.1).Nodup := by
    have distinct := checked.distinct
    rwa [← blockTxs_fst pindex b, List.map_map] at distinct
  have stored := (foldlM_extend_pos names (connectBlock_view
    connected)).1 _ (txPositions_getElem i (firstTxPos pindex b) found)
  obtain ⟨entry, present, position⟩ := Option.map_eq_some_iff.mp stored
  obtain ⟨shorter, here⟩ := List.getElem?_eq_some_iff.mp found
  have body : b.vtx.flatMap serialize = (b.vtx.take i).flatMap serialize ++
      (serialize tx ++ (b.vtx.drop (i + 1)).flatMap serialize) := by
    conv_lhs => rw [← List.take_append_drop i b.vtx, List.drop_eq_getElem_cons shorter, here]
    simp
  have disk : (writeToDisk pchMessageStart file b).1 ++ later =
      bytesBefore pchMessageStart file b i ++ (serialize tx ++
        ((b.vtx.drop (i + 1)).flatMap serialize ++ byteString b.vchBlockSig ++ later)) := by
    have whole : serializeBlockAs serDisk b = serializeBlock b := rfl
    simp only [writeToDisk, whole, serializeBlock, serializeVector, body, bytesBefore,
      List.append_assoc]
  have offset : entry.pos.nTxPos.toNat = (bytesBefore pchMessageStart file b i).length := by
    have header : (serializeHeader b).length = 80 := by
      simp [serializeHeader, writeUint256, writeUint32]
    have limit := checked.size
    simp only [serializeBlock, serializeVector, List.length_append, body, maxBlockSize] at limit
    simp only [Appendable, maxSize] at appendable
    rw [position, firstTxPos, placed, writeToDisk, ← UInt32.ofNat_add, ← UInt32.ofNat_add,
      UInt32.toNat_ofNat', bytesBefore]
    simp only [List.length_append, writeUint32, leBytes_length, header]
    omega
  refine ⟨entry, _, present, by rw [position], disk, offset, ?_⟩
  obtain ⟨_, run, _⟩ := reads_unserializeTx autoFile_delivers (nullTx nTime nBestHeight) (written tx)
    rfl rfl (encodable_written (checked.transactions tx (List.mem_of_getElem? found)))
    ⟨serialize (written tx) ++ _⟩ _ _ rfl le_rfl
  rw [readFromDisk, offset, disk, List.drop_left, ← serialize_written, run]
  rfl

/-- The last of the three transactions of a block. -/
theorem positions_exact_childTx : ∃ entry,
    txView (connected undoneLedger saverIndex).txdb (getTxHash plainEnv childTx) = some entry ∧
      readFromDisk (nullTx 0 0) ((writeToDisk 0 (List.replicate 6992 0) saverRecord.block).1 ++ [7])
        entry.pos = some childTx := by
  have ⟨_, _, _, connects⟩ := saverIndex_accepted
  obtain ⟨entry, _, present, _, _, _, read⟩ := positions_exact plainEnv 1432700000 emptyPool
    undoneLedger _ saverRecord.block saverIndex 0 (List.replicate 6992 0) [7] 0 0
    (by rw [Appendable, List.length_replicate]; decide)
    (by simp only [writeToDisk, writeUint32, List.length_append, List.length_replicate,
      leBytes_length]; rfl) (connectBlock_connected undoneLedger saverIndex connects) 2
    childTx rfl
  exact ⟨entry, present, read⟩

end SynergyLedger.Positions
