import Mathlib.Logic.Function.Basic
import Mathlib.Data.List.Basic
import Mathlib.Algebra.BigOperators.Group.List.Basic
import Mathlib.Algebra.Order.Ring.Int

/-!
# An index of one-shot outputs

A transaction has an identifier, a number of outputs and a list of outputs of
earlier transactions that it spends.  The index keeps for every transaction its
position and one slot per output; a slot is null until a transaction spends the
output, and then holds the position of the spender.

`canonical` is the index a chain of transactions (newest first) determines and
`Valid` says that the chain never spends a missing or spent output and never
repeats an identifier.  All facts about an index that follows a chain are facts
about `canonical`: which entries exist, which slots are null, that no output has
two spenders, that removing the newest transaction restores the previous index,
and what the null slots are worth.
-/

set_option autoImplicit false

namespace SynergyLib.OutputLedger

open Option Function
open List hiding le_refl

structure SlotEntry (P : Type) where
  pos : P
  slots : List P
  deriving DecidableEq

structure Shape (Tx Id : Type) where
  txid : Tx → Id
  spends : Tx → List (Id × Nat)
  outputs : Tx → Nat

abbrev Index (Id P : Type) := Id → Option (SlotEntry P)

section Marking
variable {Id P : Type} [DecidableEq Id]

/-- Overwrite with `p` every slot of one entry that `os` names. -/
def markEntry (os : List (Id × Nat)) (p : P) (id : Id) (entry : SlotEntry P) : SlotEntry P :=
  { entry with slots := entry.slots.mapIdx fun n s => if (id, n) ∈ os then p else s }

def mark (os : List (Id × Nat)) (p : P) (index : Index Id P) : Index Id P :=
  fun id => (index id).map (markEntry os p id)

variable {p : P} {os : List (Id × Nat)} {entry : SlotEntry P} {id : Id} {index : Index Id P}
  {o : Id × Nat}

theorem markEntry_getElem? {n : Nat} : (markEntry os p id entry).slots[n]? =
      (entry.slots[n]?).map fun s => if (id, n) ∈ os then p else s := by
  simp [markEntry, List.getElem?_mapIdx]

theorem markEntry_length : (markEntry os p id entry).slots.length = entry.slots.length := by
  simp [markEntry]

theorem slotEntry_ext {first second : SlotEntry P} (samePos : first.pos = second.pos)
    (sameSlots : ∀ n : Nat, first.slots[n]? = second.slots[n]?) : first = second :=
  congr (congrArg SlotEntry.mk samePos) (ext_getElem? sameSlots)

theorem mark_of_not_mem (outside : ∀ n, (id, n) ∉ os) : mark os p index id = index id := by
  have same (e : SlotEntry P) : markEntry os p id e = e :=
    slotEntry_ext rfl fun n => by simp [markEntry_getElem?, outside n]
  cases entry : index id <;> simp [mark, entry, same]

theorem mark_nil (p : P) (index : Index Id P) : mark [] p index = index :=
  funext fun _ => mark_of_not_mem fun _ => not_mem_nil

theorem mark_singleton_self (present : index o.1 = some entry) :
    mark [o] p index o.1 = some { entry with slots := entry.slots.set o.2 p } := by
  have same : markEntry [o] p o.1 entry = { entry with slots := entry.slots.set o.2 p } := by
    refine slotEntry_ext rfl (fun n => ?_)
    rw [markEntry_getElem?, List.getElem?_set]
    by_cases slot : o.2 = n
    · subst slot
      by_cases bound : o.2 < entry.slots.length
      · simp [bound]
      · simp [bound]
    · have other : (o.1, n) ≠ o := fun equal => slot (congrArg Prod.snd equal).symm
      simp [slot, other]
  simp [mark, present, same]

theorem mark_singleton_of_ne (different : id ≠ o.1) : mark [o] p index id = index id :=
  mark_of_not_mem fun _ member => different (congrArg Prod.fst (mem_singleton.mp member))

theorem mark_singleton_eq_update (o : Id × Nat) (p : P) (index : Index Id P)
    (entry : SlotEntry P) (present : index o.1 = some entry) :
    mark [o] p index = update index o.1 (some { entry with slots := entry.slots.set o.2 p }) := by
  funext id
  by_cases same : id = o.1
  · subst same
    rw [update_self, mark_singleton_self present]
  · rw [update_of_ne same, mark_singleton_of_ne same]

theorem mark_cons (o : Id × Nat) (os : List (Id × Nat)) (p : P) (index : Index Id P) :
    mark (o :: os) p index = mark os p (mark [o] p index) := by
  funext id
  cases entry : index id with
  | none => simp [mark, entry]
  | some e =>
    have same : markEntry (o :: os) p id e = markEntry os p id (markEntry [o] p id e) := by
      refine slotEntry_ext rfl (fun n => ?_)
      rw [markEntry_getElem?, markEntry_getElem?, markEntry_getElem?]
      cases e.slots[n]? with
      | none => rfl
      | some s =>
        by_cases first : (id, n) = o <;> by_cases second : (id, n) ∈ os <;> simp [first, second]
    simp [mark, entry, same]

end Marking

/-! ## Spending and releasing one output after another -/

section Spending
variable {Id P : Type} [DecidableEq Id] (isNull : P → Bool)

/-- The output exists and its slot is null. -/
def Available (index : Index Id P) (o : Id × Nat) : Prop :=
  ∃ entry slot, index o.1 = some entry ∧ entry.slots[o.2]? = some slot ∧ isNull slot = true

def InRange (index : Index Id P) (o : Id × Nat) : Prop :=
  ∃ entry, index o.1 = some entry ∧ o.2 < entry.slots.length

def spend (p : P) (index : Index Id P) (o : Id × Nat) : Option (Index Id P) :=
  match index o.1 with
  | none => none
  | some entry =>
    match entry.slots[o.2]? with
    | none => none
    | some slot => if isNull slot then some (mark [o] p index) else none

def release (null : P) (index : Index Id P) (o : Id × Nat) : Option (Index Id P) :=
  match index o.1 with
  | none => none
  | some entry => if o.2 < entry.slots.length then some (mark [o] null index) else none

variable {isNull}

variable {index : Index Id P} {p : P} {o : Id × Nat}

theorem spend_eq_some_iff {result : Index Id P} :
    spend isNull p index o = some result ↔ Available isNull index o ∧ result = mark [o] p index := by
  cases present : index o.1 with
  | none => simp [spend, Available, present]
  | some entry =>
    cases slotAt : entry.slots[o.2]? with
    | none => simp [spend, Available, present, slotAt]
    | some slot =>
      by_cases nullSlot : isNull slot = true
      · simp [spend, Available, present, slotAt, nullSlot, eq_comm (a := result)]
      · simp [spend, Available, present, slotAt, nullSlot]

theorem release_eq_some_iff (null : P) (index result : Index Id P) (o : Id × Nat) :
    release null index o = some result ↔ InRange index o ∧ result = mark [o] null index := by
  cases present : index o.1 with
  | none => simp [release, InRange, present]
  | some entry => simp [release, InRange, present, eq_comm]

omit [DecidableEq Id] in
theorem InRange.of_available (available : Available isNull index o) : InRange index o := by
  obtain ⟨entry, slot, present, slotAt, _⟩ := available
  exact ⟨entry, present, (List.getElem?_eq_some_iff.mp slotAt).1⟩

theorem inRange_mark (os : List (Id × Nat)) (p : P) (index : Index Id P) (o : Id × Nat) :
    InRange (mark os p index) o ↔ InRange index o := by
  cases present : index o.1 with
  | none => simp [InRange, mark, present]
  | some entry => simp [InRange, mark, present, markEntry_length]

theorem available_mark_singleton (placed : isNull p = false) {other : Id × Nat} :
    Available isNull (mark [o] p index) other ↔ Available isNull index other ∧ other ≠ o := by
  cases present : index other.1 with
  | none => simp [Available, mark, present]
  | some entry =>
    cases slotAt : entry.slots[other.2]? with
    | none => simp [Available, mark, present, markEntry_getElem?, slotAt]
    | some slot =>
      by_cases same : other = o
      · simp [Available, mark, markEntry_getElem?, same, placed]
      · simp [Available, mark, present, markEntry_getElem?, slotAt, same]

/-- Spending a list succeeds exactly when every output is available and none is
named twice. -/
theorem foldlM_spend_iff (placed : isNull p = false) {os : List (Id × Nat)} :
    ∀ index result : Index Id P, os.foldlM (spend isNull p) index = some result ↔
      (∀ o ∈ os, Available isNull index o) ∧ os.Nodup ∧ result = mark os p index := by
  induction os with
  | nil =>
    intro index result
    simp [mark_nil, eq_comm]
  | cons o os ih =>
    intro index result
    simp only [foldlM_cons, bind_eq_bind, bind_eq_some_iff, spend_eq_some_iff]
    constructor
    · rintro ⟨next, ⟨available, rfl⟩, run⟩
      obtain ⟨others, distinct, rfl⟩ := (ih _ result).mp run
      refine ⟨?_, ?_, (mark_cons o os p index).symm⟩
      · intro other member
        rcases mem_cons.mp member with rfl | member
        · exact available
        · exact ((available_mark_singleton placed).mp (others other member)).1
      · refine nodup_cons.mpr ⟨fun member => ?_, distinct⟩
        exact ((available_mark_singleton placed).mp (others o member)).2 rfl
    · rintro ⟨available, distinct, rfl⟩
      obtain ⟨notMember, distinct⟩ := nodup_cons.mp distinct
      refine ⟨_, ⟨available o mem_cons_self, rfl⟩, (ih _ _).mpr
        ⟨fun other member => ?_, distinct, mark_cons o os p index⟩⟩
      refine (available_mark_singleton placed).mpr ⟨available other (mem_cons_of_mem _ member), ?_⟩
      rintro rfl
      exact notMember member

theorem foldlM_release_iff (null : P) (os : List (Id × Nat)) :
    ∀ index result : Index Id P, os.foldlM (release null) index = some result ↔
      (∀ o ∈ os, InRange index o) ∧ result = mark os null index := by
  induction os with
  | nil =>
    intro index result
    simp [mark_nil, eq_comm]
  | cons o os ih =>
    intro index result
    simp only [foldlM_cons, bind_eq_bind, bind_eq_some_iff,
      release_eq_some_iff, ih, forall_mem_cons, mark_cons o os]
    constructor
    · rintro ⟨next, ⟨inRange, rfl⟩, others, rfl⟩
      exact ⟨⟨inRange, fun x member => (inRange_mark _ _ _ x).mp (others x member)⟩, rfl⟩
    · rintro ⟨⟨inRange, others⟩, rfl⟩
      exact ⟨_, ⟨inRange, rfl⟩, fun x member => (inRange_mark _ _ _ x).mpr (others x member), rfl⟩

end Spending

/-! ## The index of a chain -/

section Chain
variable {Tx Id P : Type} [DecidableEq Id]
variable (S : Shape Tx Id) (null : P) (isNull : P → Bool)

def newEntry (tx : Tx) (pos : P) : SlotEntry P :=
  ⟨pos, List.replicate (S.outputs tx) null⟩

def addTx (tx : Tx) (pos : P) (index : Index Id P) : Index Id P :=
  Function.update (mark (S.spends tx) pos index) (S.txid tx) (some (newEntry S null tx pos))

def removeTx (tx : Tx) (index : Index Id P) : Index Id P :=
  Function.update (mark (S.spends tx) null index) (S.txid tx) none

def canonical : List (Tx × P) → Index Id P
  | [] => fun _ => none
  | (tx, pos) :: rest => addTx S null tx pos (canonical rest)

inductive Valid : List (Tx × P) → Prop where
  | nil : Valid []
  | cons {tx : Tx} {pos : P} {rest : List (Tx × P)} (tail : Valid rest)
      (available : ∀ o ∈ S.spends tx, Available isNull (canonical S null rest) o)
      (distinct : (S.spends tx).Nodup)
      (fresh : ∀ x ∈ rest, S.txid x.1 ≠ S.txid tx)
      (placed : isNull pos = false) : Valid ((tx, pos) :: rest)

variable {S null isNull} (nullIsNull : isNull null = true)

variable {rest chain : List (Tx × P)} {x : Tx × P} {tx : Tx} {pos : P} {index result : Index Id P}

theorem Valid.tail (valid : Valid S null isNull (x :: rest)) : Valid S null isNull rest := by
  cases valid with
  | cons tail _ _ _ _ => exact tail

theorem Valid.drop {pre : List (Tx × P)} (valid : Valid S null isNull (pre ++ rest)) :
    Valid S null isNull rest := by
  induction pre with
  | nil => exact valid
  | cons x pre ih => exact ih valid.tail

theorem canonical_isSome_iff (chain : List (Tx × P)) (id : Id) :
    (canonical S null chain id).isSome = true ↔ ∃ x ∈ chain, S.txid x.1 = id := by
  induction chain with
  | nil => simp [canonical]
  | cons x rest ih =>
    obtain ⟨tx, pos⟩ := x
    by_cases same : id = S.txid tx
    · subst same
      simp [canonical, addTx]
    · have other : S.txid tx ≠ id := fun equal => same equal.symm
      simp [canonical, addTx, update_of_ne same, mark, ih, other]

theorem canonical_eq_none_iff {id : Id} :
    canonical S null chain id = none ↔ ∀ x ∈ chain, S.txid x.1 ≠ id := by
  rw [← not_isSome_iff_eq_none, canonical_isSome_iff]
  simp

theorem available_mem {o : Id × Nat} (available : Available isNull (canonical S null chain) o) :
    ∃ x ∈ chain, S.txid x.1 = o.1 := by
  obtain ⟨entry, _, present, _, _⟩ := available
  have found : (canonical S null chain o.1).isSome = true := by rw [present]; rfl
  exact (canonical_isSome_iff chain o.1).mp found

section ValidChain
variable (valid : Valid S null isNull chain)
include valid

theorem Valid.entry :
    ∀ x ∈ chain, ∃ entry, canonical S null chain (S.txid x.1) = some entry ∧
      entry.pos = x.2 ∧ entry.slots.length = S.outputs x.1 := by
  induction valid with
  | nil => intro x member; simp at member
  | @cons tx pos rest tail available distinct fresh placed ih =>
    intro x member
    rcases mem_cons.mp member with rfl | member
    · exact ⟨newEntry S null tx pos, by simp [canonical, addTx], rfl, by simp [newEntry]⟩
    · obtain ⟨entry, present, posExact, lengthExact⟩ := ih x member
      have other : S.txid x.1 ≠ S.txid tx := fresh x member
      refine ⟨markEntry (S.spends tx) pos (S.txid x.1) entry, ?_, posExact, ?_⟩
      · simp [canonical, addTx, update_of_ne other, mark, present]
      · rw [markEntry_length, lengthExact]

theorem Valid.spent_mem : ∀ y ∈ chain, ∀ o ∈ S.spends y.1, ∃ x ∈ chain, S.txid x.1 = o.1 := by
  induction valid with
  | nil => intro y member; simp at member
  | @cons tx pos rest tail available distinct fresh placed ih =>
    intro y member o spends
    rcases mem_cons.mp member with rfl | member
    · obtain ⟨x, xMember, idExact⟩ := available_mem (available o spends)
      exact ⟨x, mem_cons_of_mem _ xMember, idExact⟩
    · obtain ⟨x, xMember, idExact⟩ := ih y member o spends
      exact ⟨x, mem_cons_of_mem _ xMember, idExact⟩

include nullIsNull in
/-- Slot by slot: a slot is not null exactly when a chain transaction spends the
output, and every null slot is the canonical null. -/
theorem Valid.slot :
    ∀ (id : Id) (entry : SlotEntry P) (n : Nat) (slot : P),
      canonical S null chain id = some entry → entry.slots[n]? = some slot →
      (isNull slot = false ↔ ∃ y ∈ chain, (id, n) ∈ S.spends y.1) ∧
        (isNull slot = true → slot = null) := by
  induction valid with
  | nil => intro id entry n slot present; simp [canonical] at present
  | @cons tx pos rest tail available distinct fresh placed ih =>
    intro id entry n slot present slotAt
    by_cases same : id = S.txid tx
    · -- nobody in the older chain, nor `tx` itself, can spend an output of `tx`
      subst same
      have entryExact : newEntry S null tx pos = entry := by simpa [canonical, addTx] using present
      subst entryExact
      have slotExact : slot = null := by
        have member := mem_of_getElem? slotAt
        exact (mem_replicate.mp member).2
      subst slotExact
      refine ⟨?_, fun _ => rfl⟩
      constructor
      · intro notNull; rw [nullIsNull] at notNull; cases notNull
      · rintro ⟨y, member, spends⟩
        exfalso
        rcases mem_cons.mp member with rfl | member
        · obtain ⟨x, xMember, idExact⟩ := available_mem (available _ spends)
          exact fresh x xMember idExact
        · obtain ⟨x, xMember, idExact⟩ := tail.spent_mem y member _ spends
          exact fresh x xMember idExact
    · have older : ∃ e, canonical S null rest id = some e ∧
          markEntry (S.spends tx) pos id e = entry := by
        simpa [canonical, addTx, update_of_ne same, mark] using present
      obtain ⟨e, oldPresent, marked⟩ := older
      subst marked
      rw [markEntry_getElem?] at slotAt
      obtain ⟨oldSlot, oldSlotAt, slotExact⟩ := map_eq_some_iff.mp slotAt
      obtain ⟨oldSpent, oldNull⟩ := ih id e n oldSlot oldPresent oldSlotAt
      by_cases spends : (id, n) ∈ S.spends tx
      · have slotPos : slot = pos := by simpa [spends] using slotExact.symm
        subst slotPos
        refine ⟨⟨fun _ => ⟨(tx, slot), mem_cons_self, spends⟩, fun _ => placed⟩, ?_⟩
        intro nullSlot
        rw [placed] at nullSlot
        cases nullSlot
      · have slotOld : slot = oldSlot := by simpa [spends] using slotExact.symm
        subst slotOld
        refine ⟨?_, oldNull⟩
        rw [oldSpent]
        simp [spends]

include nullIsNull in
theorem Valid.unspent {o : Id × Nat} (available : Available isNull (canonical S null chain) o) :
    ∀ x ∈ chain, o ∉ S.spends x.1 := by
  intro x member spends
  obtain ⟨entry, slot, present, slotAt, nullSlot⟩ := available
  have spent := (valid.slot nullIsNull o.1 entry o.2 slot present slotAt).1.mpr ⟨x, member, spends⟩
  simp [nullSlot] at spent

include nullIsNull in
theorem Valid.spends_pairwise : chain.Pairwise fun x y => ∀ o ∈ S.spends x.1, o ∉ S.spends y.1 := by
  induction valid with
  | nil => exact List.Pairwise.nil
  | cons tail available distinct fresh placed ih =>
    exact pairwise_cons.mpr ⟨fun y member o spends =>
      tail.unspent nullIsNull (available o spends) y member, ih⟩

theorem Valid.txid_pairwise : chain.Pairwise fun x y => S.txid y.1 ≠ S.txid x.1 := by
  induction valid with
  | nil => exact List.Pairwise.nil
  | cons tail available distinct fresh placed ih =>
    exact pairwise_cons.mpr ⟨fresh, ih⟩

/-- No transaction of a chain spends an output of itself or of a newer one. -/
theorem Valid.parents_pairwise :
    chain.Pairwise (fun x y => ∀ o ∈ S.spends y.1, o.1 ≠ S.txid x.1) ∧
      ∀ x ∈ chain, ∀ o ∈ S.spends x.1, o.1 ≠ S.txid x.1 := by
  induction valid with
  | nil => simp
  | @cons tx pos rest tail available distinct fresh placed ih =>
    refine ⟨pairwise_cons.mpr ⟨?_, ih.1⟩, forall_mem_cons.mpr ⟨?_, ih.2⟩⟩
    · intro y member o spends same
      obtain ⟨x, older, id⟩ := tail.spent_mem y member o spends
      exact fresh x older (id.trans same)
    · intro o spends same
      obtain ⟨x, older, id⟩ := available_mem (available o spends)
      exact fresh x older (id.trans same)

include nullIsNull in
/-- A transaction whose spent outputs are all available cannot already be in the
chain, if transactions with one identifier spend the same outputs. -/
theorem Valid.fresh_of_available (spending : S.spends tx ≠ [])
    (available : ∀ o ∈ S.spends tx, Available isNull (canonical S null chain) o)
    (sameSpends : ∀ x ∈ chain, S.txid x.1 = S.txid tx → S.spends x.1 = S.spends tx) :
    ∀ x ∈ chain, S.txid x.1 ≠ S.txid tx := by
  intro x member sameId
  obtain ⟨o, spends⟩ := exists_mem_of_ne_nil _ spending
  exact valid.unspent nullIsNull (available o spends) x member
    (sameSpends x member sameId ▸ spends)

end ValidChain

include nullIsNull in
theorem Valid.removeTx_canonical (valid : Valid S null isNull ((tx, pos) :: rest)) :
    removeTx S null tx (canonical S null ((tx, pos) :: rest)) = canonical S null rest := by
  cases valid with
  | cons tail available distinct fresh placed =>
    funext id
    by_cases same : id = S.txid tx
    · subst same
      have absent : canonical S null rest (S.txid tx) = none := canonical_eq_none_iff.mpr fresh
      simp [removeTx, absent]
    · cases entryAt : canonical S null rest id with
      | none => simp [removeTx, canonical, addTx, update_of_ne same, mark, entryAt]
      | some entry =>
        have restored : markEntry (S.spends tx) null id
            (markEntry (S.spends tx) pos id entry) = entry := by
          refine slotEntry_ext rfl (fun n => ?_)
          rw [markEntry_getElem?, markEntry_getElem?]
          cases slotAt : entry.slots[n]? with
          | none => rfl
          | some slot =>
            by_cases spends : (id, n) ∈ S.spends tx
            · obtain ⟨e, s, present, sAt, nullSlot⟩ := available (id, n) spends
              have entryEq : entry = e := some.inj (entryAt.symm.trans present)
              subst entryEq
              have slotEq : slot = s := some.inj (slotAt.symm.trans sAt)
              subst slotEq
              have canonicalNull := (tail.slot nullIsNull id entry n slot entryAt slotAt).2 nullSlot
              simp [spends, canonicalNull]
            · simp [spends]
        simp [removeTx, canonical, addTx, update_of_ne same, mark, entryAt, restored]

/-! ### Connecting and disconnecting transactions -/

variable (S null isNull) in
/-- Spend the inputs one after another, then enter the transaction. -/
def extend (index : Index Id P) (x : Tx × P) : Option (Index Id P) :=
  ((S.spends x.1).foldlM (spend isNull x.2) index).map fun spent =>
    Function.update spent (S.txid x.1) (some (newEntry S null x.1 x.2))

variable (S null) in
/-- Release the inputs one after another, then erase the transaction. -/
def retract (index : Index Id P) (tx : Tx) : Option (Index Id P) :=
  ((S.spends tx).foldlM (release null) index).map fun released =>
    Function.update released (S.txid tx) none

theorem extend_iff (placed : isNull x.2 = false) : extend S null isNull index x = some result ↔
      (∀ o ∈ S.spends x.1, Available isNull index o) ∧ (S.spends x.1).Nodup ∧
        result = addTx S null x.1 x.2 index := by
  simp only [extend, map_eq_some_iff, foldlM_spend_iff placed]
  constructor
  · rintro ⟨spent, ⟨available, distinct, rfl⟩, rfl⟩
    exact ⟨available, distinct, rfl⟩
  · rintro ⟨available, distinct, rfl⟩
    exact ⟨_, ⟨available, distinct, rfl⟩, rfl⟩

theorem extend_pos (run : extend S null isNull index x = some result) :
    (result (S.txid x.1)).map SlotEntry.pos = some x.2 ∧
      ∀ id, id ≠ S.txid x.1 → (result id).map SlotEntry.pos = (index id).map SlotEntry.pos := by
  have spent : ∀ (os : List (Id × Nat)) (index spent : Index Id P),
      os.foldlM (spend isNull x.2) index = some spent →
        ∀ id, (spent id).map SlotEntry.pos = (index id).map SlotEntry.pos := by
    intro os
    induction os with
    | nil =>
      intro index spent run
      cases run
      exact fun _ => rfl
    | cons o os ih =>
      intro index spent run id
      obtain ⟨next, first, rest⟩ := bind_eq_some_iff.mp run
      rw [ih next spent rest, (spend_eq_some_iff.mp first).2, mark, Option.map_map]
      rfl
  obtain ⟨paid, pays, rfl⟩ := map_eq_some_iff.mp run
  refine ⟨by rw [update_self]; rfl, fun id other => ?_⟩
  rw [update_of_ne other, spent _ _ _ pays]

theorem foldlM_extend_pos {txs : List (Tx × P)} : ∀ {index result : Index Id P},
    (txs.map fun x => S.txid x.1).Nodup → txs.foldlM (extend S null isNull) index = some result →
      (∀ x ∈ txs, (result (S.txid x.1)).map SlotEntry.pos = some x.2) ∧
      ∀ id ∉ txs.map (fun x => S.txid x.1),
        (result id).map SlotEntry.pos = (index id).map SlotEntry.pos := by
  induction txs with
  | nil =>
    intro index result _ run
    cases run
    simp
  | cons x txs ih =>
    intro index result distinct run
    obtain ⟨next, first, rest⟩ := bind_eq_some_iff.mp run
    obtain ⟨fresh, distinct⟩ := nodup_cons.mp distinct
    obtain ⟨placed, others⟩ := ih distinct rest
    obtain ⟨here, kept⟩ := extend_pos first
    refine ⟨forall_mem_cons.mpr ⟨(others _ fresh).trans here, placed⟩, fun id outside => ?_⟩
    rw [map_cons, mem_cons, not_or] at outside
    exact (others id outside.2).trans (kept id outside.1)

include nullIsNull in
/-- A run over transactions with distinct identifiers keeps the chain valid and the
index canonical.  A transaction that spends nothing has to be new by other means. -/
theorem Valid.foldlM_extend {txs : List (Tx × P)} :
    ∀ (chain : List (Tx × P)) (result : Index Id P), Valid S null isNull chain →
      (txs.map fun x => S.txid x.1).Nodup →
      (∀ x ∈ txs, isNull x.2 = false) →
      (∀ x ∈ txs, ∀ y ∈ chain, S.txid y.1 = S.txid x.1 → S.spends y.1 = S.spends x.1) →
      (∀ x ∈ txs, S.spends x.1 = [] → ∀ y ∈ chain, S.txid y.1 ≠ S.txid x.1) →
      txs.foldlM (extend S null isNull) (canonical S null chain) = some result →
      Valid S null isNull (txs.reverse ++ chain) ∧
        result = canonical S null (txs.reverse ++ chain) := by
  induction txs with
  | nil =>
    intro chain result valid _ _ _ _ run
    have same : canonical S null chain = result := by simpa using run
    exact ⟨valid, same.symm⟩
  | cons x txs ih =>
    intro chain result valid distinct placed sameSpends rootFresh run
    obtain ⟨tx, pos⟩ := x
    simp only [foldlM_cons, bind_eq_bind, bind_eq_some_iff] at run
    obtain ⟨next, first, rest⟩ := run
    have here : isNull pos = false := placed (tx, pos) mem_cons_self
    obtain ⟨available, spendsDistinct, rfl⟩ := (extend_iff here).mp first
    have fresh : ∀ y ∈ chain, S.txid y.1 ≠ S.txid tx := by
      by_cases spending : S.spends tx = []
      · exact rootFresh (tx, pos) mem_cons_self spending
      · exact valid.fresh_of_available nullIsNull spending available
          (sameSpends (tx, pos) mem_cons_self)
    have grown : Valid S null isNull ((tx, pos) :: chain) :=
      .cons valid available spendsDistinct fresh here
    obtain ⟨notMember, distinct⟩ := nodup_cons.mp distinct
    have other : ∀ y ∈ txs, S.txid tx ≠ S.txid y.1 := fun y member equal =>
      notMember (List.mem_map.mpr ⟨y, member, equal.symm⟩)
    have step := ih ((tx, pos) :: chain) result grown distinct
      (fun y member => placed y (mem_cons_of_mem _ member))
      (fun y member z zMember equal => by
        rcases mem_cons.mp zMember with rfl | zMember
        · exact absurd equal (other y member)
        · exact sameSpends y (mem_cons_of_mem _ member) z zMember equal)
      (fun y member spendless z zMember => by
        rcases mem_cons.mp zMember with rfl | zMember
        · exact other y member
        · exact rootFresh y (mem_cons_of_mem _ member) spendless z zMember)
      rest
    simpa using step

include nullIsNull in
theorem Valid.retract_canonical (valid : Valid S null isNull ((tx, pos) :: rest)) :
    retract S null (canonical S null ((tx, pos) :: rest)) tx = some (canonical S null rest) := by
  have inRange : ∀ o ∈ S.spends tx, InRange (canonical S null ((tx, pos) :: rest)) o := by
    cases valid with
    | cons tail available distinct fresh placed =>
      intro o spends
      obtain ⟨x, member, idExact⟩ := available_mem (available o spends)
      have other : o.1 ≠ S.txid tx := idExact ▸ fresh x member
      have older := (inRange_mark (S.spends tx) pos _ o).mpr
        (InRange.of_available (available o spends))
      simpa [InRange, canonical, addTx, update_of_ne other] using older
  have released := (foldlM_release_iff null (S.spends tx) _ _).mpr ⟨inRange, rfl⟩
  rw [retract, released, map_some]
  exact congrArg some (valid.removeTx_canonical nullIsNull)

include nullIsNull in
theorem Valid.foldlM_retract {newest : List (Tx × P)} :
    ∀ chain : List (Tx × P), Valid S null isNull (newest ++ chain) →
      (newest.map Prod.fst).foldlM (retract S null) (canonical S null (newest ++ chain)) =
        some (canonical S null chain) := by
  induction newest with
  | nil => intro chain _; rfl
  | cons x newest ih =>
    intro chain valid
    obtain ⟨tx, pos⟩ := x
    have first : retract S null (canonical S null ((tx, pos) :: (newest ++ chain))) tx =
        some (canonical S null (newest ++ chain)) := valid.retract_canonical nullIsNull
    simp only [map_cons, foldlM_cons, cons_append, bind_eq_bind, first, bind_some]
    exact ih chain valid.tail

end Chain

/-! ## What the null slots are worth

`values` lists the amounts of the outputs of a transaction. -/

section Worth
variable {Tx Id P : Type} [DecidableEq Id] (S : Shape Tx Id) (isNull : P → Bool)
variable (values : Tx → List Int)

/-- The amounts `f n` of the null slots `n` of one entry. -/
def slotsWorth (f : Nat → Int) : List P → Int
  | [] => 0
  | slot :: rest => (if isNull slot then f 0 else 0) + slotsWorth (fun n => f (n + 1)) rest

def entryWorth (index : Index Id P) (tx : Tx) : Int :=
  match index (S.txid tx) with
  | none => 0
  | some entry => slotsWorth isNull (fun n => (values tx).getD n 0) entry.slots

def unspentWorth (index : Index Id P) : List (Tx × P) → Int
  | [] => 0
  | x :: rest => entryWorth S isNull values index x.1 + unspentWorth index rest

/-- The amount of an output of a chain transaction. -/
def outputWorth (chain : List (Tx × P)) (o : Id × Nat) : Int :=
  match chain.find? fun x => S.txid x.1 == o.1 with
  | none => 0
  | some x => (values x.1).getD o.2 0

variable {S isNull values}

variable {null : P} {slots : List P}

theorem slotsWorth_replicate (nullIsNull : isNull null = true) {amounts : List Int} :
    slotsWorth isNull (fun n => amounts.getD n 0) (replicate amounts.length null) =
      amounts.sum := by
  induction amounts with
  | nil => rfl
  | cons amount amounts ih =>
    simp only [length_cons, replicate_succ, slotsWorth, nullIsNull, if_true,
      getD_cons_zero, getD_cons_succ, sum_cons, ih]

theorem slotsWorth_set {p : P} (placed : isNull p = false) :
    ∀ (f : Nat → Int) (n : Nat) (slot : P), slots[n]? = some slot → isNull slot = true →
      slotsWorth isNull f (slots.set n p) = slotsWorth isNull f slots - f n := by
  induction slots with
  | nil =>
    intro f n slot slotAt
    simp at slotAt
  | cons first slots ih =>
    intro f n slot slotAt nullSlot
    cases n with
    | zero =>
      obtain rfl : first = slot := by simpa using slotAt
      simp only [set_cons_zero, slotsWorth, placed, nullSlot, if_true, Bool.false_eq_true, if_false]
      omega
    | succ n =>
      have later := ih (fun m => f (m + 1)) n slot (by simpa using slotAt) nullSlot
      simp only [set_cons_succ, slotsWorth, later]
      omega

theorem slotsWorth_nonneg : ∀ f : Nat → Int, (∀ n, 0 ≤ f n) → 0 ≤ slotsWorth isNull f slots := by
  induction slots with
  | nil => intro f _; exact le_refl 0
  | cons slot slots ih =>
    intro f nonneg
    have rest := ih (fun n => f (n + 1)) (fun n => nonneg (n + 1))
    have first := nonneg 0
    simp only [slotsWorth]
    split_ifs <;> omega

omit [DecidableEq Id] in
theorem unspentWorth_nonneg {index : Index Id P} {chain : List (Tx × P)}
    (nonneg : ∀ x ∈ chain, ∀ amount ∈ values x.1, 0 ≤ amount) :
    0 ≤ unspentWorth S isNull values index chain := by
  induction chain with
  | nil => exact le_refl 0
  | cons x rest ih =>
    have older := ih fun y member => nonneg y (mem_cons_of_mem _ member)
    have entry : 0 ≤ entryWorth S isNull values index x.1 := by
      unfold entryWorth
      split
      · exact le_refl 0
      · refine slotsWorth_nonneg _ fun n => ?_
        rw [List.getD_eq_getElem?_getD]
        cases amountAt : (values x.1)[n]? with
        | none => exact le_refl 0
        | some amount => exact nonneg x mem_cons_self amount (mem_of_getElem? amountAt)
    exact add_nonneg entry older

omit [DecidableEq Id] in
theorem unspentWorth_congr {first second : Index Id P} {chain : List (Tx × P)}
    (same : ∀ x ∈ chain, first (S.txid x.1) = second (S.txid x.1)) :
    unspentWorth S isNull values first chain = unspentWorth S isNull values second chain := by
  induction chain with
  | nil => rfl
  | cons x rest ih =>
    simp only [unspentWorth, entryWorth, same x mem_cons_self,
      ih fun y member => same y (mem_cons_of_mem _ member)]

variable (values) in
theorem unspentWorth_mark_singleton {p : P} (placed : isNull p = false) {index : Index Id P}
    {o : Id × Nat} (available : Available isNull index o) {chain : List (Tx × P)}
    (distinct : chain.Pairwise fun x y => S.txid y.1 ≠ S.txid x.1)
    (present : ∃ x ∈ chain, S.txid x.1 = o.1) :
    unspentWorth S isNull values (mark [o] p index) chain =
      unspentWorth S isNull values index chain - outputWorth S values chain o := by
  obtain ⟨entry, slot, entryAt, slotAt, nullSlot⟩ := available
  induction chain with
  | nil =>
    obtain ⟨x, member, _⟩ := present
    cases member
  | cons x rest ih =>
    obtain ⟨apart, distinct⟩ := pairwise_cons.mp distinct
    by_cases here : S.txid x.1 = o.1
    · have others : unspentWorth S isNull values (mark [o] p index) rest =
          unspentWorth S isNull values index rest :=
        unspentWorth_congr fun y member =>
          mark_singleton_of_ne fun equal => apart y member (equal.trans here.symm)
      have filled := slotsWorth_set placed (fun n => (values x.1).getD n 0) o.2 slot slotAt nullSlot
      simp only [unspentWorth, entryWorth, outputWorth, here, others,
        mark_singleton_self entryAt, entryAt, filled, List.find?_cons, beq_self_eq_true]
      omega
    · obtain ⟨y, member, same⟩ := present
      have later : ∃ y ∈ rest, S.txid y.1 = o.1 := by
        rcases mem_cons.mp member with rfl | member
        · exact absurd same here
        · exact ⟨y, member, same⟩
      have skipped : (S.txid x.1 == o.1) = false := by simpa using here
      have tail := ih distinct later
      simp only [outputWorth] at tail
      simp only [unspentWorth, entryWorth, outputWorth, mark_singleton_of_ne here, tail,
        List.find?_cons, skipped]
      omega

variable (values) in
theorem unspentWorth_mark {p : P} (placed : isNull p = false) {chain : List (Tx × P)}
    (distinct : chain.Pairwise fun x y => S.txid y.1 ≠ S.txid x.1) {os : List (Id × Nat)} :
    ∀ index : Index Id P, (∀ o ∈ os, Available isNull index o) → os.Nodup →
      (∀ o ∈ os, ∃ x ∈ chain, S.txid x.1 = o.1) →
      unspentWorth S isNull values (mark os p index) chain =
        unspentWorth S isNull values index chain - (os.map (outputWorth S values chain)).sum := by
  induction os with
  | nil =>
    intro index _ _ _
    simp [mark_nil]
  | cons o os ih =>
    intro index available nodup present
    obtain ⟨notMember, nodup⟩ := nodup_cons.mp nodup
    have first := unspentWorth_mark_singleton values placed
      (available o mem_cons_self) distinct (present o mem_cons_self)
    have rest := ih (mark [o] p index) (fun other member =>
        (available_mark_singleton placed).mpr
          ⟨available other (mem_cons_of_mem _ member), fun equal =>
            notMember (equal ▸ member)⟩)
      nodup (fun other member => present other (mem_cons_of_mem _ member))
    rw [mark_cons, rest, first, map_cons, sum_cons]
    omega

theorem Valid.unspentWorth_cons {tx : Tx} {pos : P} {rest : List (Tx × P)}
    (valid : Valid S null isNull ((tx, pos) :: rest)) (nullIsNull : isNull null = true)
    (sized : S.outputs tx = (values tx).length) :
    unspentWorth S isNull values (canonical S null ((tx, pos) :: rest)) ((tx, pos) :: rest) =
      unspentWorth S isNull values (canonical S null rest) rest + (values tx).sum -
        ((S.spends tx).map (outputWorth S values rest)).sum := by
  cases valid with
  | cons tail available distinct fresh placed =>
    have entered : entryWorth S isNull values (canonical S null ((tx, pos) :: rest)) tx =
        (values tx).sum := by
      simp only [entryWorth, canonical, addTx, update_self, newEntry, sized]
      exact slotsWorth_replicate nullIsNull
    have older : unspentWorth S isNull values (canonical S null ((tx, pos) :: rest)) rest =
        unspentWorth S isNull values (mark (S.spends tx) pos (canonical S null rest)) rest :=
      unspentWorth_congr fun x member => by
        simp only [canonical, addTx, update_of_ne (fresh x member)]
    have spent := unspentWorth_mark values placed tail.txid_pairwise (canonical S null rest)
      available distinct fun o member => available_mem (available o member)
    simp only [unspentWorth, entered, older, spent]
    omega

end Worth

end SynergyLib.OutputLedger
