import Mathlib.Data.List.Induction
import Mathlib.Logic.Function.Basic

/-!
# A key/value store with one open write batch

Writes and deletions issued while a batch is open are queued in issue order and
reach the store only when the batch is committed.  A read first scans the whole
batch, where the last operation on the key wins, and falls back to the store.
`view` is the map a reader should see; `read_eq_view` says that scanning computes
it, and the update lemmas say how every operation moves it.
-/

set_option autoImplicit false

namespace SynergyLib.BatchStore

open Function

inductive BatchOp (K V : Type) where
  | put (key : K) (value : V)
  | delete (key : K)

/-- The key an operation is about. -/
def BatchOp.key {K V : Type} : BatchOp K V → K
  | .put key _ => key
  | .delete key => key

structure TxnStore (K V : Type) where
  store : K → Option V
  activeBatch : Option (List (BatchOp K V))

section Operations
variable {K V : Type} [DecidableEq K]

/-- What the scan has found so far: nothing, a deletion, or a value. -/
def scanStep (needle : K) (found : Option (Option V)) : BatchOp K V → Option (Option V)
  | .put key value => if key = needle then some (some value) else found
  | .delete key => if key = needle then some none else found

def scanBatch (ops : List (BatchOp K V)) (needle : K) : Option (Option V) :=
  ops.foldl (scanStep needle) none

def applyOp (contents : K → Option V) : BatchOp K V → K → Option V
  | .put key value => Function.update contents key (some value)
  | .delete key => Function.update contents key none

def applyBatch (ops : List (BatchOp K V)) (contents : K → Option V) : K → Option V :=
  ops.foldl applyOp contents

def view (db : TxnStore K V) : K → Option V :=
  match db.activeBatch with
  | some ops => applyBatch ops db.store
  | none => db.store

def read (db : TxnStore K V) (key : K) : Option V :=
  match db.activeBatch with
  | some ops => (scanBatch ops key).getD (db.store key)
  | none => db.store key

/-- An existence test that consults the batch only for a pending value: a pending
deletion is not taken into account, and the store is asked instead. -/
def contains (db : TxnStore K V) (key : K) : Bool :=
  match db.activeBatch with
  | some ops =>
    match scanBatch ops key with
    | some (some _) => true
    | _ => (db.store key).isSome
  | none => (db.store key).isSome

theorem read_of_not_contains {db : TxnStore K V} {key : K} (absent : contains db key = false) :
    read db key = none := by
  unfold contains at absent
  unfold read
  cases batch : db.activeBatch with
  | none => simpa [batch] using absent
  | some ops =>
    simp only [batch] at absent
    cases scanned : scanBatch ops key with
    | none => simpa [scanned] using absent
    | some pending =>
      cases pending with
      | none => simp [scanned]
      | some value => simp [scanned] at absent

def issue (db : TxnStore K V) (op : BatchOp K V) : TxnStore K V :=
  match db.activeBatch with
  | some ops => { db with activeBatch := some (ops ++ [op]) }
  | none => { db with store := applyOp db.store op }

def write (db : TxnStore K V) (key : K) (value : V) : TxnStore K V :=
  issue db (.put key value)

def erase (db : TxnStore K V) (key : K) : TxnStore K V :=
  issue db (.delete key)

def txnBegin (db : TxnStore K V) : TxnStore K V :=
  { db with activeBatch := some [] }

def txnCommit (db : TxnStore K V) : TxnStore K V :=
  { store := view db, activeBatch := none }

def txnAbort (db : TxnStore K V) : TxnStore K V :=
  { db with activeBatch := none }

theorem applyOp_eq_scanStep {contents : K → Option V} {op : BatchOp K V} {key : K}
    {found : Option (Option V)} {initial : K → Option V}
    (agrees : contents key = found.getD (initial key)) :
    applyOp contents op key = (scanStep key found op).getD (initial key) := by
  cases op with
  | put k v =>
    by_cases same : k = key
    · subst same; simp [applyOp, scanStep]
    · simp [applyOp, scanStep, same, update_of_ne (Ne.symm same), agrees]
  | delete k =>
    by_cases same : k = key
    · subst same; simp [applyOp, scanStep]
    · simp [applyOp, scanStep, same, update_of_ne (Ne.symm same), agrees]

theorem applyBatch_eq_scan {ops : List (BatchOp K V)} {initial : K → Option V} {key : K} :
    ∀ (contents : K → Option V) (found : Option (Option V)),
      contents key = found.getD (initial key) →
      applyBatch ops contents key = (ops.foldl (scanStep key) found).getD (initial key) := by
  induction ops with
  | nil => intro contents found agrees; exact agrees
  | cons op rest ih =>
    intro contents found agrees
    exact ih (applyOp contents op) (scanStep key found op) (applyOp_eq_scanStep agrees)

section TxnStore
variable (db : TxnStore K V)
include db

theorem read_eq_view {key : K} : read db key = view db key := by
  cases batch : db.activeBatch with
  | none => simp [read, view, batch]
  | some ops =>
    simp only [read, view, batch]
    exact (applyBatch_eq_scan db.store none rfl).symm

theorem view_issue {op : BatchOp K V} : view (issue db op) = applyOp (view db) op := by
  cases batch : db.activeBatch with
  | none => simp [issue, view, batch]
  | some ops => simp [issue, view, batch, applyBatch, List.foldl_append]

theorem view_write (key : K) (value : V) :
    view (write db key value) = update (view db) key (some value) :=
  view_issue db

theorem view_erase {key : K} : view (erase db key) = update (view db) key none :=
  view_issue db

theorem view_txnBegin (closed : db.activeBatch = none) : view (txnBegin db) = view db := by
  simp [txnBegin, view, applyBatch, closed]

@[simp] theorem store_txnCommit : (txnCommit db).store = view db := rfl

end TxnStore

/-- While a batch is open the store is left alone and the batch stays open. -/
structure Queued (before after : TxnStore K V) : Prop where
  store : before.activeBatch.isSome = true → after.store = before.store
  batch : before.activeBatch.isSome = true → after.activeBatch.isSome = true

omit [DecidableEq K] in
theorem Queued.refl (db : TxnStore K V) : Queued db db := ⟨fun _ => rfl, id⟩

omit [DecidableEq K] in
theorem Queued.trans {first second third : TxnStore K V} (one : Queued first second)
    (two : Queued second third) : Queued first third :=
  ⟨fun opened => (two.store (one.batch opened)).trans (one.store opened),
    fun opened => two.batch (one.batch opened)⟩

theorem queued_issue {db : TxnStore K V} {op : BatchOp K V} : Queued db (issue db op) := by
  refine ⟨fun opened => ?_, fun opened => ?_⟩ <;>
    obtain ⟨ops, batch⟩ := Option.isSome_iff_exists.mp opened <;> simp [issue, batch]

theorem queued_write (db : TxnStore K V) (key : K) (value : V) : Queued db (write db key value) :=
  queued_issue

theorem queued_erase {db : TxnStore K V} {key : K} : Queued db (erase db key) := queued_issue

theorem contains_closed {db : TxnStore K V} {key : K} (closed : db.activeBatch = none) :
    contains db key = (view db key).isSome := by
  simp [contains, view, closed]

/-! ## Pending deletions -/

def lastOp (ops : List (BatchOp K V)) (key : K) : Option (BatchOp K V) :=
  ops.reverse.find? fun op => op.key = key

/-- The last operation on the key since the batch was opened is a deletion. -/
def ErasePending (db : TxnStore K V) (key : K) : Prop :=
  ∃ ops, db.activeBatch = some ops ∧ lastOp ops key = some (.delete key)

theorem scanBatch_eq_none {ops : List (BatchOp K V)} {key : K} :
    scanBatch ops key = some none ↔ lastOp ops key = some (.delete key) := by
  induction ops using List.reverseRecOn with
  | nil => simp [scanBatch, lastOp]
  | append_singleton ops op ih =>
    rw [scanBatch, List.foldl_append, List.foldl_cons, List.foldl_nil, lastOp,
      List.reverse_append, List.reverse_singleton, List.singleton_append, List.find?_cons]
    cases op with
    | put k v =>
      by_cases same : k = key
      · simp [scanStep, BatchOp.key, same]
      · simpa [scanStep, BatchOp.key, same, scanBatch, lastOp] using ih
    | delete k =>
      by_cases same : k = key
      · simp [scanStep, BatchOp.key, same]
      · simpa [scanStep, BatchOp.key, same, scanBatch, lastOp] using ih

theorem contains_eq_view_iff (db : TxnStore K V) (key : K) :
    (view db key).isSome = contains db key ↔
      ¬ (ErasePending db key ∧ (db.store key).isSome = true) := by
  rw [← read_eq_view]
  cases batch : db.activeBatch with
  | none => simp [read, contains, ErasePending, batch]
  | some ops =>
    have pending : ErasePending db key ↔ scanBatch ops key = some none := by
      simp [ErasePending, batch, scanBatch_eq_none]
    rw [pending]
    simp only [read, contains, batch]
    cases scanned : scanBatch ops key with
    | none => simp
    | some found =>
      cases found with
      | none => simp
      | some value => simp

end Operations

end SynergyLib.BatchStore
