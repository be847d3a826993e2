import SynergyFormal.Lib.BatchStore
import SynergyFormal.Lib.Session
import SynergyFormal.Lib.Wire

/-!
# Calls on one database object

`CTxDB::Read`, `Write`, `Erase`, `Exists`, `TxnBegin`, `TxnCommit` and `TxnAbort`, over
the serialized keys and values that reach LevelDB.  A call whose assertion fails does
not return.  `TransactionalMap` is what a transaction is for: inside it every call
works on a copy of the store, which replaces the store on commit and is dropped on
abort.

The two answer alike, with one exception: `Exists` falls back to the store when the
batch erases the key, where `Read` stops.
-/

set_option autoImplicit false

namespace SynergyLedger.TxnCalls

open SynergyLib
open Wire BatchStore Session

/-- How keys and values are written, and how a value is read back if it can be. -/
structure Codec (K T : Type) where
  key : K → Bytes
  value : T → Bytes
  unserialize : Bytes → Option T

inductive DbCall (K T : Type) where
  | txnBegin
  | write (key : K) (value : T)
  | erase (key : K)
  | read (key : K)
  | existsKey (key : K)
  | txnCommit
  | txnAbort

inductive DbAnswer (T : Type) where
  | done
  | value (value : Option T)
  | found (present : Bool)
  deriving DecidableEq

structure TxDBObject where
  db : TxnStore Bytes Bytes
  fReadOnly : Bool

section Calls
variable {K T : Type} (codec : Codec K T)

def call (txdb : TxDBObject) : DbCall K T → Option (TxDBObject × DbAnswer T)
  | .txnBegin =>
    -- assert(!activeBatch)
    if txdb.db.activeBatch.isSome then none
    else some ({ txdb with db := txnBegin txdb.db }, .done)
  | .write key value =>
    if txdb.fReadOnly then none
    else some ({ txdb with db := write txdb.db (codec.key key) (codec.value value) }, .done)
  | .erase key =>
    if txdb.fReadOnly then none
    else some ({ txdb with db := erase txdb.db (codec.key key) }, .done)
  | .read key => some (txdb, .value ((read txdb.db (codec.key key)).bind codec.unserialize))
  | .existsKey key => some (txdb, .found (contains txdb.db (codec.key key)))
  | .txnCommit =>
    -- assert(activeBatch)
    if txdb.db.activeBatch.isSome then some ({ txdb with db := txnCommit txdb.db }, .done)
    else none
  | .txnAbort => some ({ txdb with db := txnAbort txdb.db }, .done)

/-! ## The ideal transaction -/

structure TransactionalMap where
  committed : Bytes → Option Bytes
  /-- The copy an open transaction works on. -/
  working : Option (Bytes → Option Bytes)
  fReadOnly : Bool

def TransactionalMap.contents (map : TransactionalMap) : Bytes → Option Bytes :=
  map.working.getD map.committed

def TransactionalMap.set (map : TransactionalMap) (key : Bytes) (value : Option Bytes) :
    TransactionalMap :=
  match map.working with
  | some copy => { map with working := some (Function.update copy key value) }
  | none => { map with committed := Function.update map.committed key value }

def idealCall (map : TransactionalMap) : DbCall K T → Option (TransactionalMap × DbAnswer T)
  | .txnBegin =>
    if map.working.isSome then none
    else some ({ map with working := some map.committed }, .done)
  | .write key value =>
    if map.fReadOnly then none
    else some (map.set (codec.key key) (some (codec.value value)), .done)
  | .erase key => if map.fReadOnly then none else some (map.set (codec.key key) none, .done)
  | .read key => some (map, .value ((map.contents (codec.key key)).bind codec.unserialize))
  | .existsKey key => some (map, .found (map.contents (codec.key key)).isSome)
  | .txnCommit =>
    if map.working.isSome then
      some ({ map with committed := map.contents, working := none }, .done)
    else none
  | .txnAbort => some ({ map with working := none }, .done)

def ideal (txdb : TxDBObject) : TransactionalMap where
  committed := txdb.db.store
  working := txdb.db.activeBatch.map fun ops => applyBatch ops txdb.db.store
  fReadOnly := txdb.fReadOnly

omit codec in
theorem ideal_contents (txdb : TxDBObject) : (ideal txdb).contents = view txdb.db := by
  cases batch : txdb.db.activeBatch <;> simp [ideal, TransactionalMap.contents, view, batch]

theorem ideal_working (txdb : TxDBObject) :
    (ideal txdb).working.isSome = txdb.db.activeBatch.isSome := by
  simp [ideal]

theorem ideal_issue (txdb : TxDBObject) (op : BatchOp Bytes Bytes) (key : Bytes)
    (value : Option Bytes)
    (effect : ∀ contents : Bytes → Option Bytes,
      applyOp contents op = Function.update contents key value) :
    ideal { txdb with db := issue txdb.db op } = (ideal txdb).set key value := by
  cases batch : txdb.db.activeBatch with
  | none => simp [ideal, issue, TransactionalMap.set, batch, effect]
  | some ops =>
    simp [ideal, issue, TransactionalMap.set, batch, applyBatch, List.foldl_append, effect]

/-! ## Sessions -/

/-- No existence test asks for a key that the store holds and that the open transaction
has erased and not written again. -/
def AsksNoErasedKey (txdb : TxDBObject) (dbCall : DbCall K T) : Prop :=
  ∀ key, dbCall = .existsKey key →
    ¬ (ErasePending txdb.db (codec.key key) ∧ (txdb.db.store (codec.key key)).isSome = true)

theorem call_stops (txdb : TxDBObject) (dbCall : DbCall K T)
    (stopped : call codec txdb dbCall = none) :
    idealCall codec (ideal txdb) dbCall = none ∧ AsksNoErasedKey codec txdb dbCall := by
  have working := ideal_working txdb
  cases dbCall with
  | txnBegin => simpa [call, idealCall, AsksNoErasedKey, working] using stopped
  | write key value =>
    have readOnly : txdb.fReadOnly = true := by simpa [call] using stopped
    simp [idealCall, AsksNoErasedKey, ideal, readOnly]
  | erase key =>
    have readOnly : txdb.fReadOnly = true := by simpa [call] using stopped
    simp [idealCall, AsksNoErasedKey, ideal, readOnly]
  | read key => simp [call] at stopped
  | existsKey key => simp [call] at stopped
  | txnCommit => simpa [call, idealCall, AsksNoErasedKey, working] using stopped
  | txnAbort => simp [call] at stopped

theorem call_moves (txdb : TxDBObject) (dbCall : DbCall K T) (next : TxDBObject)
    (answer : DbAnswer T) (result : call codec txdb dbCall = some (next, answer)) :
    ∃ answer', idealCall codec (ideal txdb) dbCall = some (ideal next, answer') ∧
      (answer' = answer ↔ AsksNoErasedKey codec txdb dbCall) := by
  have working := ideal_working txdb
  have contents := ideal_contents txdb
  cases dbCall with
  | txnBegin =>
    simp only [call] at result
    split at result
    · cases result
    · rename_i closed
      cases result
      refine ⟨.done, ?_, by simp [AsksNoErasedKey]⟩
      simp [idealCall, closed, ideal, txnBegin, applyBatch]
  | write key value =>
    simp only [call] at result
    split at result
    · cases result
    · rename_i writable
      cases result
      refine ⟨.done, ?_, by simp [AsksNoErasedKey]⟩
      rw [write, ideal_issue txdb _ _ _ fun _ => rfl]
      simp [idealCall, ideal, writable]
  | erase key =>
    simp only [call] at result
    split at result
    · cases result
    · rename_i writable
      cases result
      refine ⟨.done, ?_, by simp [AsksNoErasedKey]⟩
      rw [erase, ideal_issue txdb _ _ _ fun _ => rfl]
      simp [idealCall, ideal, writable]
  | read key =>
    cases result
    refine ⟨_, rfl, ?_⟩
    simp [AsksNoErasedKey, contents, read_eq_view]
  | existsKey key =>
    cases result
    refine ⟨_, rfl, ?_⟩
    have agrees := contains_eq_view_iff txdb.db (codec.key key)
    simpa [AsksNoErasedKey, contents] using agrees
  | txnCommit =>
    simp only [call] at result
    split at result
    · rename_i opened
      cases result
      refine ⟨.done, ?_, by simp [AsksNoErasedKey]⟩
      rw [idealCall, working, if_pos opened, contents]
      simp [ideal, txnCommit]
    · cases result
  | txnAbort =>
    cases result
    refine ⟨.done, ?_, by simp [AsksNoErasedKey]⟩
    simp [idealCall, ideal, txnAbort]

/-- A session answers and ends as the ideal transaction does, exactly when no existence
test in it asks for an erased key of the store. -/
theorem session_transactional_iff (txdb : TxDBObject) (calls : List (DbCall K T)) :
    session (idealCall codec) (ideal txdb) calls =
        ((session (call codec) txdb calls).1, (session (call codec) txdb calls).2.map ideal) ↔
      Throughout (call codec) (AsksNoErasedKey codec) txdb calls :=
  session_agrees_iff (call codec) (idealCall codec) ideal (AsksNoErasedKey codec)
    (call_stops codec) (call_moves codec) calls txdb

end Calls

/-! ## An erased key that is still found -/

def rawCodec : Codec Bytes Bytes := ⟨id, id, some⟩

def oneRecord : TxDBObject := ⟨⟨fun key => if key = [1] then some [7] else none, none⟩, false⟩

def eraseThenAsk : List (DbCall Bytes Bytes) := [.txnBegin, .erase [1], .read [1], .existsKey [1]]

theorem exists_finds_erased_key :
    (session (call rawCodec) oneRecord eraseThenAsk).1 =
        [.done, .done, .value none, .found true] ∧
      (session (idealCall rawCodec) (ideal oneRecord) eraseThenAsk).1 =
        [.done, .done, .value none, .found false] ∧
      session (idealCall rawCodec) (ideal oneRecord) eraseThenAsk ≠
        ((session (call rawCodec) oneRecord eraseThenAsk).1,
          (session (call rawCodec) oneRecord eraseThenAsk).2.map ideal) := by
  have answers : (session (call rawCodec) oneRecord eraseThenAsk).1 =
      [.done, .done, .value none, .found true] := by decide
  have wanted : (session (idealCall rawCodec) (ideal oneRecord) eraseThenAsk).1 =
      [.done, .done, .value none, .found false] := by decide
  refine ⟨answers, wanted, fun same => ?_⟩
  have first := congrArg Prod.fst same
  rw [wanted, answers] at first
  exact absurd first (by decide)

end SynergyLedger.TxnCalls
