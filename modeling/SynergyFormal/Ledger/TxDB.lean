import SynergyFormal.Lib.BatchStore
import SynergyFormal.Lib.OutputLedger
import SynergyFormal.Primitives.Block
import Mathlib.Data.List.AList

/-!
# The transaction database

`CTxDB` is a batched store with the record kinds the chain code uses: transaction
index entries, block index records and the two best-chain records.  `txView` is the
transaction index a reader sees; every operation is described by what it does to
that view.

An index entry is a slot entry of the output ledger: the position of the
transaction and one `vSpent` slot per output.
-/

set_option autoImplicit false

namespace SynergyLedger.TxDB

open SynergyLib SynergyData
open Function BatchStore OutputLedger Transaction Block

abbrev CTxIndex := SlotEntry CDiskTxPos

abbrev TxIndexMap := Index Uint256 CDiskTxPos

/-- `CTxIndex(posIn, nOutputs)`. -/
def newTxIndex (pos : CDiskTxPos) (nOutputs : Nat) : CTxIndex :=
  ⟨pos, List.replicate nOutputs nullPos⟩

structure CDiskBlockIndex where
  record : BlockRecord
  hashPrev : Uint256
  hashNext : Uint256
  nHeight : Nat
  nMint : Int64
  nMoneySupply : Int64
  deriving DecidableEq

inductive DbKey where
  | tx (hash : Uint256)
  | blockIndex (hash : Uint256)
  | hashBestChain
  | bnBestInvalidTrust
  deriving DecidableEq

inductive DbValue where
  | txIndex (entry : CTxIndex)
  | blockIndex (record : CDiskBlockIndex)
  | hash (hash : Uint256)
  | trust (trust : Nat)
  deriving DecidableEq

abbrev CTxDB := TxnStore DbKey DbValue

def asTxIndex : Option DbValue → Option CTxIndex
  | some (.txIndex entry) => some entry
  | _ => none

def txView (txdb : CTxDB) : TxIndexMap := fun hash => asTxIndex (view txdb (.tx hash))

def readTxIndex (txdb : CTxDB) (hash : Uint256) : Option CTxIndex :=
  asTxIndex (read txdb (.tx hash))

def updateTxIndex (txdb : CTxDB) (hash : Uint256) (entry : CTxIndex) : CTxDB :=
  write txdb (.tx hash) (.txIndex entry)

def eraseTxIndex (env : Env) (txdb : CTxDB) (tx : CTransaction) : CTxDB :=
  erase txdb (.tx (getTxHash env tx))

def writeBlockIndex (txdb : CTxDB) (blockindex : CDiskBlockIndex) : CTxDB :=
  write txdb (.blockIndex blockindex.record.phashBlock) (.blockIndex blockindex)

def writeHashBestChain (txdb : CTxDB) (hash : Uint256) : CTxDB :=
  write txdb .hashBestChain (.hash hash)

def writeBestInvalidTrust (txdb : CTxDB) (bnBestInvalidTrust : Nat) : CTxDB :=
  write txdb .bnBestInvalidTrust (.trust bnBestInvalidTrust)

variable {txdb : CTxDB} {hash : Uint256} {entry : CTxIndex} {base : TxIndexMap}

theorem readTxIndex_eq_txView : readTxIndex txdb hash = txView txdb hash := by
  rw [readTxIndex, read_eq_view, txView]

theorem txView_updateTxIndex :
    txView (updateTxIndex txdb hash entry) = update (txView txdb) hash (some entry) := by
  funext other
  rw [txView, updateTxIndex, view_write]
  by_cases same : other = hash
  · subst same; simp [asTxIndex]
  · have keys : DbKey.tx other ≠ DbKey.tx hash := fun equal => same (DbKey.tx.inj equal)
    rw [update_of_ne keys, update_of_ne same, txView]

theorem txView_eraseTxIndex {env : Env} {tx : CTransaction} : txView (eraseTxIndex env txdb tx) =
      update (txView txdb) (getTxHash env tx) none := by
  funext other
  rw [txView, eraseTxIndex, view_erase]
  by_cases same : other = getTxHash env tx
  · subst same; simp [asTxIndex]
  · have keys : DbKey.tx other ≠ DbKey.tx (getTxHash env tx) :=
      fun equal => same (DbKey.tx.inj equal)
    rw [update_of_ne keys, update_of_ne same, txView]

theorem txView_write_other {key : DbKey} {record : DbValue} (other : ∀ hash, key ≠ .tx hash) :
    txView (write txdb key record) = txView txdb := by
  funext hash
  rw [txView, view_write, update_of_ne (other hash).symm, txView]

@[simp] theorem txView_writeBlockIndex {blockindex : CDiskBlockIndex} :
    txView (writeBlockIndex txdb blockindex) = txView txdb :=
  txView_write_other (fun _ => by simp)

@[simp] theorem txView_writeHashBestChain : txView (writeHashBestChain txdb hash) = txView txdb :=
  txView_write_other (fun _ => by simp)

/-! ## Queued index changes -/

theorem lookup_insert_cases {K V : Type} [DecidableEq K] {map : AList fun _ : K => V}
    {key other : K} {value found : V} (present : (map.insert key value).lookup other = some found) :
    (other = key ∧ found = value) ∨ (other ≠ key ∧ map.lookup other = some found) := by
  by_cases same : other = key
  · subst same
    rw [AList.lookup_insert, Option.some.injEq] at present
    exact Or.inl ⟨rfl, present.symm⟩
  · rw [AList.lookup_insert_ne same] at present
    exact Or.inr ⟨same, present⟩

abbrev Queue := AList (fun _ : Uint256 => CTxIndex)

/-- The index a block sees: its own queued changes first, then the database. -/
def overlay (queue : Queue) (base : TxIndexMap) : TxIndexMap := fun hash =>
  (queue.lookup hash).or (base hash)

theorem overlay_empty : overlay ∅ base = base := by
  funext hash
  simp [overlay]

variable {queue : Queue}

theorem overlay_insert : overlay (queue.insert hash entry) base =
      update (overlay queue base) hash (some entry) := by
  funext other
  by_cases same : other = hash
  · subst same; simp [overlay]
  · simp [overlay, AList.lookup_insert_ne same, update_of_ne same]

/-- `mapQueuedChanges` is written entry by entry. -/
def writeQueue (txdb : CTxDB) (queue : Queue) : CTxDB :=
  queue.entries.foldl (fun db item => updateTxIndex db item.1 item.2) txdb

theorem txView_foldl_update {items : List (Sigma fun _ : Uint256 => CTxIndex)} :
    ∀ txdb : CTxDB, items.NodupKeys → ∀ hash,
      txView (items.foldl (fun db item => updateTxIndex db item.1 item.2) txdb) hash =
        (items.dlookup hash).or (txView txdb hash) := by
  induction items with
  | nil => intro txdb _ hash; simp
  | cons item items ih =>
    intro txdb distinct hash
    obtain ⟨key, entry⟩ := item
    obtain ⟨notMember, distinct⟩ := List.nodupKeys_cons.mp distinct
    rw [List.foldl_cons, ih _ distinct, txView_updateTxIndex]
    by_cases same : hash = key
    · subst same
      have absent : items.dlookup hash = none := List.dlookup_eq_none.mpr notMember
      simp [absent]
    · rw [update_of_ne same, List.dlookup_cons_ne _ _ same]

theorem txView_writeQueue : txView (writeQueue txdb queue) = overlay queue (txView txdb) := by
  funext hash
  exact txView_foldl_update txdb queue.nodupKeys hash

end SynergyLedger.TxDB
