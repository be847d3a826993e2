import SynergyFormal.Lib.Session
import SynergyFormal.Lib.Leases
import Mathlib

/-!
# The key pool

`CWallet::setKeyPool` holds the indexes on offer, the wallet database the key recorded
under each index.  A `CReserveKey` takes the smallest index out of the set and later
keeps or returns it.  Reserved indexes are absent from the set, and the functions that
write new records count from the set alone: two outstanding reservations hold different
keys in every run that never writes over the index of an outstanding reservation, and
not in every run.
-/

set_option autoImplicit false

namespace SynergyWallet.KeyPool

open SynergyLib
open Function Leases Session

structure CReserveKey (Key : Type) where
  nIndex : Option ℕ
  vchPubKey : Option Key

structure CWallet (Key Holder : Type) where
  setKeyPool : Finset ℕ
  /-- The pool records of the wallet database. -/
  pool : ℕ → Option Key
  keyStore : Finset Key
  vchDefaultKey : Option Key
  fLocked : Bool
  /-- How many keys the wallet generated. -/
  nGenerated : ℕ
  reserveKeys : Holder → CReserveKey Key
  /-- The keys kept so far, in no structure of the program. -/
  kept : List Key

section Functions
variable {Key Holder : Type} [DecidableEq Key] [DecidableEq Holder]
variable (nKeyPool : ℕ) (generated : ℕ → Key)

def setReserveKey (w : CWallet Key Holder) (h : Holder) (reserve : CReserveKey Key) :
    CWallet Key Holder :=
  { w with reserveKeys := Function.update w.reserveKeys h reserve }

/-- `1 + *(--setKeyPool.end())`, and 1 on the empty set. -/
def nEnd (w : CWallet Key Holder) : ℕ := w.setKeyPool.sup id + 1

def writePool (w : CWallet Key Holder) (nIndex : ℕ) (key : Key) : CWallet Key Holder :=
  { w with
    setKeyPool := insert nIndex w.setKeyPool
    pool := Function.update w.pool nIndex (some key) }

/-- `GenerateNewKey()`, which also adds the key to the key store. -/
def generateNewKey (w : CWallet Key Holder) : CWallet Key Holder :=
  { w with
    keyStore := insert (generated w.nGenerated) w.keyStore
    nGenerated := w.nGenerated + 1 }

def writeNewKey (w : CWallet Key Holder) (nIndex : ℕ) : CWallet Key Holder :=
  writePool (generateNewKey generated w) nIndex (generated w.nGenerated)

def newKeyPool (w : CWallet Key Holder) : CWallet Key Holder :=
  let cleared := { w with
    setKeyPool := ∅
    pool := fun nIndex => if nIndex ∈ w.setKeyPool then none else w.pool nIndex }
  if w.fLocked then cleared
  else (List.range nKeyPool).foldl (fun w i => writeNewKey generated w (i + 1)) cleared

/-- `nTargetSize + 1`, in 32 bits. -/
def targetSize (nSize : UInt32) : ℕ :=
  ((if nSize > 0 then nSize else UInt32.ofNat nKeyPool) + 1).toNat

def topUpLoop (bound : ℕ) : ℕ → CWallet Key Holder → CWallet Key Holder
  | 0, w => w
  | fuel + 1, w =>
    if w.setKeyPool.card < bound then topUpLoop bound fuel (writeNewKey generated w (nEnd w))
    else w

def topUpKeyPool (nSize : UInt32) (w : CWallet Key Holder) : CWallet Key Holder :=
  if w.fLocked then w
  else topUpLoop generated (targetSize nKeyPool nSize) (targetSize nKeyPool nSize) w

/-- The index taken, and the key read for it unless the read or the key check throws. -/
def reserveKeyFromKeyPool (w : CWallet Key Holder) :
    CWallet Key Holder × Option (ℕ × Option Key) :=
  let filled := topUpKeyPool nKeyPool generated 0 w
  if nonempty : filled.setKeyPool.Nonempty then
    let nIndex := filled.setKeyPool.min' nonempty
    ({ filled with setKeyPool := filled.setKeyPool.erase nIndex },
      some (nIndex, (filled.pool nIndex).filter (· ∈ filled.keyStore)))
  else (filled, none)

/-- `none`: the predecessor of the end of an empty set is read. -/
def addReserveKey (key : Key) (w : CWallet Key Holder) : Option (CWallet Key Holder) :=
  if w.setKeyPool.Nonempty then some (writePool w (nEnd w) key) else none

def getReservedKey (h : Holder) (w : CWallet Key Holder) : CWallet Key Holder :=
  match (w.reserveKeys h).nIndex with
  | some _ => w
  | none =>
    match reserveKeyFromKeyPool nKeyPool generated w with
    | (w, some (nIndex, key)) =>
      -- A throw leaves the index in the holder, and its key as it was.
      setReserveKey w h ⟨some nIndex, key.or (w.reserveKeys h).vchPubKey⟩
    | (w, none) =>
      match w.vchDefaultKey with
      | some key => setReserveKey w h ⟨none, some key⟩
      | none => w

def keepKey (h : Holder) (w : CWallet Key Holder) : CWallet Key Holder :=
  match w.reserveKeys h with
  | ⟨some nIndex, key⟩ =>
    setReserveKey { w with
      pool := Function.update w.pool nIndex none
      kept := key.toList ++ w.kept } h ⟨none, none⟩
  | ⟨none, _⟩ => setReserveKey w h ⟨none, none⟩

def returnKey (h : Holder) (w : CWallet Key Holder) : CWallet Key Holder :=
  match (w.reserveKeys h).nIndex with
  | some nIndex => setReserveKey { w with setKeyPool := insert nIndex w.setKeyPool } h ⟨none, none⟩
  | none => setReserveKey w h ⟨none, none⟩

end Functions

/-! ## Runs -/

inductive Event (Key Holder : Type) where
  | getReservedKey (h : Holder)
  | keepKey (h : Holder)
  | returnKey (h : Holder)
  | topUpKeyPool (nSize : UInt32)
  | newKeyPool
  | addReserveKey (key : Key)
  | setLocked (fLocked : Bool)

section Runs
variable {Key Holder : Type} [DecidableEq Key] [DecidableEq Holder]
variable (nKeyPool : ℕ) (generated : ℕ → Key)

def step (w : CWallet Key Holder) : Event Key Holder → Option (CWallet Key Holder)
  | .getReservedKey h => some (getReservedKey nKeyPool generated h w)
  | .keepKey h => some (keepKey h w)
  | .returnKey h => some (returnKey h w)
  | .topUpKeyPool nSize => some (topUpKeyPool nKeyPool generated nSize w)
  | .newKeyPool => some (newKeyPool nKeyPool generated w)
  | .addReserveKey key => addReserveKey key w
  | .setLocked fLocked => some { w with fLocked }

def Outstanding (w : CWallet Key Holder) (nIndex : ℕ) : Prop :=
  ∃ h, (w.reserveKeys h).nIndex = some nIndex

def Reserved (w : CWallet Key Holder) (h : Holder) (key : Key) : Prop :=
  ∃ nIndex, w.reserveKeys h = ⟨some nIndex, some key⟩

/-- The indexes a top-up gives to new keys. -/
def toppedUp (nSize : UInt32) (w : CWallet Key Holder) : Finset ℕ :=
  if w.fLocked then ∅
  else Finset.Ico (nEnd w) (nEnd w + (targetSize nKeyPool nSize - w.setKeyPool.card))

/-- No record of an outstanding reservation is written over, and a key handed in from
outside is a key of the wallet that is neither on offer, nor reserved, nor kept. -/
def SparesReserved (w : CWallet Key Holder) : Event Key Holder → Prop
  | .getReservedKey h =>
    (w.reserveKeys h).nIndex = none → ∀ i ∈ toppedUp nKeyPool 0 w, ¬ Outstanding w i
  | .topUpKeyPool nSize => ∀ i ∈ toppedUp nKeyPool nSize w, ¬ Outstanding w i
  | .newKeyPool => w.fLocked = false → ∀ i < nKeyPool, ¬ Outstanding w (i + 1)
  | .addReserveKey key =>
    w.setKeyPool.Nonempty ∧ ¬ Outstanding w (nEnd w) ∧ key ∈ w.keyStore ∧ key ∉ w.kept ∧
      ∀ i, i ∈ w.setKeyPool ∨ Outstanding w i → w.pool i ≠ some key
  | _ => True

/-- A wallet as it is opened: nothing reserved or kept, every index on offer with a key of
its own that the wallet has, and only keys to be generated that it does not have. -/
structure Opened (w : CWallet Key Holder) : Prop where
  idle : ∀ h, w.reserveKeys h = ⟨none, none⟩
  kept : w.kept = []
  backed : ∀ i ∈ w.setKeyPool, ∃ key, w.pool i = some key ∧ key ∈ w.keyStore
  distinct : ∀ i ∈ w.setKeyPool, ∀ j ∈ w.setKeyPool, w.pool i = w.pool j → i = j
  unknown : ∀ n ≥ w.nGenerated, generated n ∉ w.keyStore

/-! ## The pool as a table of leases -/

def CReserveKey.lease (reserve : CReserveKey Key) : Option (ℕ × Key) :=
  match reserve with
  | ⟨some nIndex, some key⟩ => some (nIndex, key)
  | _ => none

def leases (w : CWallet Key Holder) : Table ℕ Key Holder where
  free := w.setKeyPool
  record := w.pool
  held h := (w.reserveKeys h).lease
  spent := w.kept

/-- What every run keeps. -/
structure Consistent (w : CWallet Key Holder) : Prop where
  sound : (leases w).Sound
  /-- A holder with an index has its key. -/
  complete : ∀ h i, (w.reserveKeys h).nIndex = some i → ∃ key, w.reserveKeys h = ⟨some i, some key⟩
  known : ∀ i key, (leases w).Live i → w.pool i = some key → key ∈ w.keyStore
  keptKnown : ∀ key ∈ w.kept, key ∈ w.keyStore
  unknown : ∀ n ≥ w.nGenerated, generated n ∉ w.keyStore

end Runs

section Records
variable {Key Holder : Type} {w : CWallet Key Holder} {nKeyPool : ℕ} {generated : ℕ → Key}

theorem lease_eq_some {reserve : CReserveKey Key} {i : ℕ} {key : Key} :
    reserve.lease = some (i, key) ↔ reserve = ⟨some i, some key⟩ := by
  rcases reserve with ⟨_ | j, _ | k⟩ <;> simp [CReserveKey.lease]

theorem Opened.consistent (opened : Opened generated w) : Consistent generated w := by
  have none_held : ∀ h, (leases w).held h = none := fun h => by
    simp [leases, opened.idle h, CReserveKey.lease]
  have live : ∀ i, (leases w).Live i → i ∈ w.setKeyPool := by
    rintro i (member | ⟨h, k, held⟩)
    · exact member
    · simp [none_held h] at held
  refine ⟨⟨?_, ?_, ?_, ?_, ?_⟩, ?_, ?_, ?_, opened.unknown⟩
  · intro i member
    obtain ⟨key, stored, _⟩ := opened.backed i member
    exact ⟨key, stored⟩
  · intro h i k held
    simp [none_held h] at held
  · intro h h' i k k' held
    simp [none_held h] at held
  · intro i j k iLive jLive iStored jStored
    exact opened.distinct i (live i iLive) j (live j jLive) (iStored.trans jStored.symm)
  · simp [leases, opened.kept]
  · intro h i reserved
    simp [opened.idle h] at reserved
  · intro i key iLive stored
    obtain ⟨key', stored', owned⟩ := opened.backed i (live i iLive)
    rw [stored] at stored'
    cases stored'
    exact owned
  · simp [opened.kept]

theorem Outstanding.of_lent {i : ℕ} (lent : (leases w).Lent i) : Outstanding w i := by
  obtain ⟨h, key, held⟩ := lent
  exact ⟨h, congrArg CReserveKey.nIndex (lease_eq_some.mp held)⟩

theorem nEnd_notMem : nEnd w ∉ w.setKeyPool := by
  intro member
  have bound : nEnd w ≤ w.setKeyPool.sup id := Finset.le_sup (f := id) member
  exact absurd bound (Nat.not_succ_le_self _)

theorem nEnd_not_live (spared : ¬ Outstanding w (nEnd w)) : ¬ (leases w).Live (nEnd w) := by
  rintro (member | lent)
  · exact nEnd_notMem member
  · exact spared (Outstanding.of_lent lent)

/-! ## Writing records -/

variable (distinct : Function.Injective generated) (consistent : Consistent generated w)

include consistent in
theorem Consistent.writePool {i : ℕ} {key : Key} (idle : ¬ (leases w).Live i)
    (owned : key ∈ w.keyStore) (fresh : ∀ j, (leases w).Live j → w.pool j ≠ some key)
    (unsettled : key ∉ w.kept) : Consistent generated (writePool w i key) := by
  have same : leases (KeyPool.writePool w i key) = (leases w).put i key := rfl
  refine ⟨?_, consistent.complete, fun j k live stored => ?_, consistent.keptKnown,
    consistent.unknown⟩
  · rw [same]
    exact consistent.sound.put idle fresh unsettled
  · rw [same] at live
    by_cases here : j = i
    · subst here
      simp only [KeyPool.writePool, update_self] at stored
      cases stored
      exact owned
    · simp only [KeyPool.writePool, update_of_ne here] at stored
      exact consistent.known j k (live.of_put.resolve_left here) stored

section Keys
variable [DecidableEq Key]

theorem nEnd_writeNewKey : nEnd (writeNewKey generated w (nEnd w)) = nEnd w + 1 := by
  have written : (writeNewKey generated w (nEnd w)).setKeyPool.sup id =
      max (nEnd w) (w.setKeyPool.sup id) := Finset.sup_insert
  have larger : w.setKeyPool.sup id ≤ nEnd w := Nat.le_succ _
  rw [nEnd, written, max_eq_left larger]

theorem card_writeNewKey :
    (writeNewKey generated w (nEnd w)).setKeyPool.card = w.setKeyPool.card + 1 :=
  Finset.card_insert_of_notMem nEnd_notMem

theorem topUpLoop_reserveKeys (generated : ℕ → Key) (bound fuel : ℕ) (w : CWallet Key Holder) :
    (topUpLoop generated bound fuel w).reserveKeys = w.reserveKeys := by
  induction fuel generalizing w with
  | zero => rfl
  | succ fuel ih =>
    rw [topUpLoop]
    split
    · exact ih _
    · rfl

/-- The loop stops because the pool is full, never for want of fuel. -/
theorem topUpLoop_fills {bound fuel : ℕ} (enough : bound ≤ w.setKeyPool.card + fuel) :
    bound ≤ (topUpLoop generated bound fuel w).setKeyPool.card := by
  induction fuel generalizing w with
  | zero => exact enough
  | succ fuel ih =>
    rw [topUpLoop]
    split
    · apply ih
      rw [card_writeNewKey]
      omega
    · omega

theorem topUpKeyPool_reserveKeys {nSize : UInt32} :
    (topUpKeyPool nKeyPool generated nSize w).reserveKeys = w.reserveKeys := by
  rw [topUpKeyPool]
  split
  · rfl
  · exact topUpLoop_reserveKeys generated _ _ w

include distinct consistent

theorem Consistent.generateNewKey : Consistent generated (generateNewKey generated w) := by
  refine ⟨consistent.sound, consistent.complete, fun i key live stored => ?_,
    fun key kept => ?_, fun n later => ?_⟩
  · exact Finset.mem_insert_of_mem (consistent.known i key live stored)
  · exact Finset.mem_insert_of_mem (consistent.keptKnown key kept)
  · have other : generated n ≠ generated w.nGenerated := fun same =>
      absurd (distinct same) (Nat.ne_of_gt later)
    have unknown := consistent.unknown n (Nat.le_of_succ_le later)
    simp [KeyPool.generateNewKey, other, unknown]

theorem Consistent.writeNewKey {i : ℕ} (idle : ¬ (leases w).Live i) :
    Consistent generated (writeNewKey generated w i) := by
  have unknown := consistent.unknown w.nGenerated le_rfl
  refine (consistent.generateNewKey distinct).writePool idle (Finset.mem_insert_self _ _) ?_ ?_
  · exact fun j live stored => unknown (consistent.known j _ live stored)
  · exact fun kept => unknown (consistent.keptKnown _ kept)

/-! ## Topping up -/

theorem Consistent.topUpLoop (bound fuel : ℕ)
    (spared : ∀ i ∈ Finset.Ico (nEnd w) (nEnd w + (bound - w.setKeyPool.card)), ¬ Outstanding w i) :
    Consistent generated (topUpLoop generated bound fuel w) := by
  induction fuel generalizing w with
  | zero => exact consistent
  | succ fuel ih =>
    rw [KeyPool.topUpLoop]
    split
    case isFalse => exact consistent
    case isTrue short =>
      have first : ¬ Outstanding w (nEnd w) := spared _ (by simp; omega)
      apply ih (consistent.writeNewKey distinct (nEnd_not_live first))
      intro i member
      rw [nEnd_writeNewKey, card_writeNewKey, Finset.mem_Ico] at member
      exact spared i (Finset.mem_Ico.mpr ⟨by omega, by omega⟩)

theorem Consistent.topUpKeyPool {nSize : UInt32}
    (spared : ∀ i ∈ toppedUp nKeyPool nSize w, ¬ Outstanding w i) :
    Consistent generated (topUpKeyPool nKeyPool generated nSize w) := by
  rw [KeyPool.topUpKeyPool]
  split
  case isTrue => exact consistent
  case isFalse unlocked =>
    rw [toppedUp, if_neg unlocked] at spared
    exact consistent.topUpLoop distinct _ _ spared

/-! ## A new pool -/

theorem Consistent.newKeyPool
    (spared : w.fLocked = false → ∀ i < nKeyPool, ¬ Outstanding w (i + 1)) :
    Consistent generated (newKeyPool nKeyPool generated w) := by
  set cleared : CWallet Key Holder := { w with
    setKeyPool := ∅
    pool := fun nIndex => if nIndex ∈ w.setKeyPool then none else w.pool nIndex } with shape
  have lentKept : ∀ i, (leases w).Lent i → cleared.pool i = w.pool i := by
    rintro i ⟨h, key, held⟩
    exact if_neg (consistent.sound.owned h i key held).2
  have base : Consistent generated cleared := by
    refine ⟨consistent.sound.withdraw lentKept, consistent.complete, fun i key live stored => ?_,
      consistent.keptKnown, consistent.unknown⟩
    have lent : (leases w).Lent i := live.resolve_left (Finset.notMem_empty i)
    exact consistent.known i key (Or.inr lent) ((lentKept i lent).symm.trans stored)
  rw [KeyPool.newKeyPool]
  split
  case isTrue => exact base
  case isFalse unlocked =>
    -- The loop has offered exactly the indexes it has passed.
    have loop : ∀ n ≤ nKeyPool,
        let filled := (List.range n).foldl
          (fun w i => KeyPool.writeNewKey generated w (i + 1)) cleared
        Consistent generated filled ∧ filled.reserveKeys = w.reserveKeys ∧
          ∀ i ∈ filled.setKeyPool, i ≤ n := by
      intro n
      induction n with
      | zero => exact fun _ => ⟨base, rfl, by simp [shape]⟩
      | succ n ih =>
        intro bound
        obtain ⟨filled, holders, passed⟩ := ih (Nat.le_of_succ_le bound)
        rw [List.range_succ, List.foldl_append]
        have idle : ¬ (leases ((List.range n).foldl
            (fun w i => KeyPool.writeNewKey generated w (i + 1)) cleared)).Live (n + 1) := by
          rintro (member | lent)
          · exact absurd (passed _ member) (Nat.not_succ_le_self n)
          · obtain ⟨h, reserved⟩ := Outstanding.of_lent lent
            rw [holders] at reserved
            exact spared (by simpa using unlocked) n bound ⟨h, reserved⟩
        refine ⟨filled.writeNewKey distinct idle, holders, fun i member => ?_⟩
        rcases Finset.mem_insert.mp member with rfl | member
        · exact le_rfl
        · exact (passed i member).trans (Nat.le_succ n)
    exact (loop nKeyPool le_rfl).1

end Keys

/-! ## Holders -/

variable [DecidableEq Holder]

theorem leases_setReserveKey {h : Holder} {reserve : CReserveKey Key} :
    leases (setReserveKey w h reserve) =
      { leases w with held := update (leases w).held h reserve.lease } := by
  have held : (leases (setReserveKey w h reserve)).held =
      update (leases w).held h reserve.lease := by
    funext g
    by_cases same : g = h
    · subst same
      simp [leases, setReserveKey]
    · simp [leases, setReserveKey, same]
  rw [← held]
  rfl

theorem complete_setReserveKey {h : Holder} {reserve : CReserveKey Key}
    (complete : ∀ g i, (w.reserveKeys g).nIndex = some i →
      ∃ key, w.reserveKeys g = ⟨some i, some key⟩)
    (here : ∀ i, reserve.nIndex = some i → ∃ key, reserve = ⟨some i, some key⟩) (g : Holder) (i : ℕ)
    (reserved : ((setReserveKey w h reserve).reserveKeys g).nIndex = some i) :
    ∃ key, (setReserveKey w h reserve).reserveKeys g = ⟨some i, some key⟩ := by
  by_cases same : g = h
  · subst same
    simp only [setReserveKey, update_self] at reserved ⊢
    exact here i reserved
  · simp only [setReserveKey, update_of_ne same] at reserved ⊢
    exact complete g i reserved

include consistent

theorem Consistent.setIdle {h : Holder} (idle : (w.reserveKeys h).nIndex = none)
    {key : Option Key} : Consistent generated (setReserveKey w h ⟨none, key⟩) := by
  have lease : (leases w).held h = none := by
    rcases shape : w.reserveKeys h with ⟨_ | i, k⟩
    · simp [leases, shape, CReserveKey.lease]
    · simp [shape] at idle
  have same : leases (setReserveKey w h ⟨none, key⟩) = leases w := by
    rw [leases_setReserveKey]
    change { leases w with held := update (leases w).held h none } = leases w
    rw [← lease, update_eq_self]
  refine ⟨?_, complete_setReserveKey consistent.complete (by simp), ?_, consistent.keptKnown,
    consistent.unknown⟩
  · rw [same]
    exact consistent.sound
  · rw [same]
    exact consistent.known

theorem Consistent.keepKey (h : Holder) : Consistent generated (keepKey h w) := by
  rw [KeyPool.keepKey]
  split
  case h_1 i key reserved =>
    obtain ⟨key, shape⟩ := consistent.complete h i (by rw [reserved])
    cases reserved.symm.trans shape
    have lent : (leases w).held h = some (i, key) := lease_eq_some.mpr shape
    have same : leases (setReserveKey { w with
        pool := update w.pool i none
        kept := (some key).toList ++ w.kept } h ⟨none, none⟩) = (leases w).settle h i key := by
      rw [leases_setReserveKey]
      rfl
    refine ⟨?_, complete_setReserveKey consistent.complete (by simp), fun j k live stored => ?_,
      fun k kept => ?_, consistent.unknown⟩
    · rw [same]
      exact consistent.sound.settle lent
    · rw [same] at live
      obtain ⟨other, before⟩ := Table.Live.of_settle consistent.sound lent live
      simp only [setReserveKey, update_of_ne other] at stored
      exact consistent.known j k before stored
    · rcases List.mem_cons.mp kept with rfl | kept
      · exact consistent.known i k (Or.inr ⟨h, k, lent⟩) (consistent.sound.owned h i k lent).1
      · exact consistent.keptKnown k kept
  case h_2 key idle => exact consistent.setIdle (by rw [idle])

theorem Consistent.returnKey (h : Holder) : Consistent generated (returnKey h w) := by
  rw [KeyPool.returnKey]
  split
  case h_1 i reserved =>
    obtain ⟨key, shape⟩ := consistent.complete h i reserved
    have lent : (leases w).held h = some (i, key) := lease_eq_some.mpr shape
    have same : leases (setReserveKey { w with setKeyPool := insert i w.setKeyPool } h
        ⟨none, none⟩) = (leases w).giveBack h i := by
      rw [leases_setReserveKey]
      rfl
    refine ⟨?_, complete_setReserveKey consistent.complete (by simp), fun j k live => ?_,
      consistent.keptKnown, consistent.unknown⟩
    · rw [same]
      exact consistent.sound.giveBack lent
    · rw [same] at live
      exact consistent.known j k (live.of_giveBack lent)
  case h_2 idle => exact consistent.setIdle idle

variable [DecidableEq Key]

theorem Consistent.reserve {h : Holder} {i : ℕ} (offered : i ∈ w.setKeyPool) {old : Option Key} :
    Consistent generated (setReserveKey { w with setKeyPool := w.setKeyPool.erase i } h
      ⟨some i, ((w.pool i).filter (· ∈ w.keyStore)).or old⟩) := by
  obtain ⟨key, stored⟩ := consistent.sound.stored i offered
  have owned : key ∈ w.keyStore := consistent.known i key (Or.inl offered) stored
  have read : ((w.pool i).filter (· ∈ w.keyStore)).or old = some key := by
    have record : w.pool i = some key := stored
    simp [record, owned]
  have same : leases (setReserveKey { w with setKeyPool := w.setKeyPool.erase i } h
      ⟨some i, some key⟩) = (leases w).take h i key := by
    rw [leases_setReserveKey]
    rfl
  rw [read]
  refine ⟨?_, complete_setReserveKey consistent.complete (by simp), fun j k live => ?_,
    consistent.keptKnown, consistent.unknown⟩
  · rw [same]
    exact consistent.sound.take offered stored
  · rw [same] at live
    exact consistent.known j k (live.of_take offered)

include distinct

theorem Consistent.getReservedKey (h : Holder)
    (spared : (w.reserveKeys h).nIndex = none → ∀ i ∈ toppedUp nKeyPool 0 w, ¬ Outstanding w i) :
    Consistent generated (getReservedKey nKeyPool generated h w) := by
  rw [KeyPool.getReservedKey]
  split
  case h_1 => exact consistent
  case h_2 idle =>
    have filled := consistent.topUpKeyPool distinct (spared idle)
    have stillIdle :
        ((KeyPool.topUpKeyPool nKeyPool generated 0 w).reserveKeys h).nIndex = none := by
      rw [topUpKeyPool_reserveKeys]
      exact idle
    rw [reserveKeyFromKeyPool]
    by_cases nonempty : (KeyPool.topUpKeyPool nKeyPool generated 0 w).setKeyPool.Nonempty
    · simp only [nonempty, ↓reduceDIte]
      exact filled.reserve (Finset.min'_mem _ nonempty)
    · simp only [nonempty, ↓reduceDIte]
      split
      · exact filled.setIdle stillIdle
      · exact filled

/-! ## Whole runs -/

theorem Consistent.step {next : CWallet Key Holder} {event : Event Key Holder}
    (spared : SparesReserved nKeyPool w event)
    (moved : step nKeyPool generated w event = some next) : Consistent generated next := by
  cases event with
  | getReservedKey h =>
    cases moved
    exact consistent.getReservedKey distinct h spared
  | keepKey h =>
    cases moved
    exact consistent.keepKey h
  | returnKey h =>
    cases moved
    exact consistent.returnKey h
  | topUpKeyPool nSize =>
    cases moved
    exact consistent.topUpKeyPool distinct spared
  | newKeyPool =>
    cases moved
    exact consistent.newKeyPool distinct spared
  | addReserveKey key =>
    obtain ⟨nonempty, free, owned, unsettled, fresh⟩ := spared
    simp only [KeyPool.step, addReserveKey, if_pos nonempty] at moved
    cases moved
    apply consistent.writePool (nEnd_not_live free) owned _ unsettled
    exact fun j live => fresh j (live.imp_right Outstanding.of_lent)
  | setLocked fLocked =>
    cases moved
    exact ⟨consistent.sound, consistent.complete, consistent.known, consistent.keptKnown,
      consistent.unknown⟩

end Records

section Runs
variable {Key Holder : Type} [DecidableEq Key] [DecidableEq Holder]
variable (nKeyPool : ℕ) (generated : ℕ → Key)

/-- In every run from an opened wallet in which no call writes over the record of an
outstanding reservation: reservations outstanding together hold different keys, a kept key
is not reserved, and every index on offer has the record of a key of the wallet. -/
theorem reservations_exclusive (distinct : Function.Injective generated)
    {opened w : CWallet Key Holder} (start : Opened generated opened)
    (reached : Reached (step nKeyPool generated) (SparesReserved nKeyPool) opened w) :
    (∀ h h' key key', h ≠ h' → Reserved w h key → Reserved w h' key' → key ≠ key') ∧
    (∀ h key, Reserved w h key → key ∉ w.kept) ∧
    ∀ i ∈ w.setKeyPool, ∃ key, w.pool i = some key ∧ key ∈ w.keyStore := by
  have consistent : Consistent generated w :=
    reached.invariant (Consistent generated) start.consistent
      fun _ _ _ before spared moved => before.step distinct spared moved
  refine ⟨?_, ?_, ?_⟩
  · rintro h h' key key' differ ⟨i, first⟩ ⟨i', second⟩
    exact consistent.sound.exclusive (lease_eq_some.mpr first) (lease_eq_some.mpr second) differ
  · rintro h key ⟨i, reserved⟩
    exact consistent.sound.lent_unspent (lease_eq_some.mpr reserved)
  · intro i member
    obtain ⟨key, stored⟩ := consistent.sound.stored i member
    exact ⟨key, stored, consistent.known i key (Or.inl member) stored⟩

end Runs

/-! ## Runs that write over a reserved index -/

/-- An unlocked wallet without a key. -/
def emptyWallet (Holder : Type) : CWallet ℕ Holder where
  setKeyPool := ∅
  pool _ := none
  keyStore := ∅
  vchDefaultKey := none
  fLocked := false
  nGenerated := 0
  reserveKeys _ := ⟨none, none⟩
  kept := []

theorem emptyWallet_opened {Holder : Type} : Opened id (emptyWallet Holder) :=
  ⟨fun _ => rfl, rfl, by simp [emptyWallet], by simp [emptyWallet], by simp [emptyWallet]⟩

/-- Two holders of a pool of three keys, the first of which keeps its key. -/
theorem reservations_exclusive_two :
    ∃ w : CWallet ℕ Bool,
      Reached (step 2 id) (SparesReserved 2) (emptyWallet Bool) w ∧
      Reserved w true 1 ∧ w.kept = [0] ∧ 1 ∉ w.kept := by
  have run : ∃ w : CWallet ℕ Bool, Reached (step 2 id) (SparesReserved 2) (emptyWallet Bool) w ∧
      Reserved w true 1 ∧ w.kept = [0] := by
    refine ⟨_, .call (.keepKey false) (.call (.getReservedKey true)
      (.call (.getReservedKey false) .refl ?_ rfl) ?_ rfl) trivial rfl, ⟨2, ?_⟩, ?_⟩
    · rintro _ i _ ⟨h, reserved⟩
      simp [emptyWallet] at reserved
    · rintro _ i written ⟨h, reserved⟩
      have only : i = 4 := Finset.mem_singleton.mp written
      subst only
      cases h with
      | false => exact absurd reserved (by decide)
      | true => exact absurd reserved (by decide)
    · rfl
    · rfl
  obtain ⟨w, reached, reserved, kept⟩ := run
  have safe := reservations_exclusive 2 id injective_id emptyWallet_opened reached
  exact ⟨w, reached, reserved, kept, safe.2.1 true 1 reserved⟩

/-- With `-keypool=0`, the second reservation's top-up writes its key over the record of the
first one; when the first is returned, the third takes the second one's key. -/
theorem third_holder_shares_key :
    ∃ w : CWallet ℕ (Fin 3), Reached (step 0 id) (fun _ _ => True) (emptyWallet (Fin 3)) w ∧
      Reserved w 1 1 ∧ Reserved w 2 1 := by
  refine ⟨_, .call (.getReservedKey 2) (.call (.returnKey 0) (.call (.getReservedKey 1)
    (.call (.getReservedKey 0) .refl trivial rfl) trivial rfl) trivial rfl) trivial rfl,
    ⟨1, ?_⟩, ⟨1, ?_⟩⟩
  · rfl
  · rfl

end SynergyWallet.KeyPool
