import Mathlib.Data.Finset.Basic
import Mathlib.Logic.Function.Basic

/-!
# Numbered records that are lent out

A table offers some of its slots; a slot is lent to one holder together with the value
recorded there, and is later given back or settled for good.  `Sound` says that nothing
is lent twice: the slots on offer and the slots lent are different slots with different
values, none of which was settled before.  Each operation keeps it; recording a value is
the one that needs to know that its slot is not in use.
-/

set_option autoImplicit false

namespace SynergyLib.Leases

open Function

structure Table (I K H : Type) where
  /-- The slots on offer. -/
  free : Finset I
  record : I → Option K
  held : H → Option (I × K)
  /-- The values settled for good. -/
  spent : List K

section Operations
variable {I K H : Type}

def Table.Lent (t : Table I K H) (i : I) : Prop := ∃ h k, t.held h = some (i, k)

/-- In use: on offer or lent. -/
def Table.Live (t : Table I K H) (i : I) : Prop := i ∈ t.free ∨ t.Lent i

structure Table.Sound (t : Table I K H) : Prop where
  stored : ∀ i ∈ t.free, ∃ k, t.record i = some k
  owned : ∀ h i k, t.held h = some (i, k) → t.record i = some k ∧ i ∉ t.free
  apart : ∀ h h' i k k', t.held h = some (i, k) → t.held h' = some (i, k') → h = h'
  distinct : ∀ i j k, t.Live i → t.Live j → t.record i = some k → t.record j = some k → i = j
  unspent : ∀ i k, t.Live i → t.record i = some k → k ∉ t.spent

variable {t : Table I K H} {i : I} {k : K} {h : H}

theorem Table.Sound.exclusive (sound : t.Sound) {h' : H} {i' : I} {k' : K}
    (first : t.held h = some (i, k)) (second : t.held h' = some (i', k')) (differ : h ≠ h') :
    k ≠ k' := by
  intro same
  subst same
  have slots : i = i' := sound.distinct i i' k (Or.inr ⟨h, k, first⟩) (Or.inr ⟨h', k, second⟩)
    (sound.owned h i k first).1 (sound.owned h' i' k second).1
  subst slots
  exact differ (sound.apart h h' i k k first second)

theorem Table.Sound.lent_unspent (sound : t.Sound) (lent : t.held h = some (i, k)) : k ∉ t.spent :=
  sound.unspent i k (Or.inr ⟨h, k, lent⟩) (sound.owned h i k lent).1

/-- Withdrawing slots from offer, whatever then happens to their records. -/
theorem Table.Sound.withdraw (sound : t.Sound) {record : I → Option K}
    (kept : ∀ i, t.Lent i → record i = t.record i) :
    ({ t with free := ∅, record } : Table I K H).Sound := by
  have live : ∀ i, ({ t with free := ∅, record } : Table I K H).Live i → t.Lent i := by
    rintro i (member | lent)
    · simp at member
    · exact lent
  refine ⟨by simp, fun h i k lent => ?_, sound.apart, ?_, ?_⟩
  · exact ⟨(kept i ⟨h, k, lent⟩).trans (sound.owned h i k lent).1, by simp⟩
  · intro i j k iLive jLive iStored jStored
    have iLent := live i iLive
    have jLent := live j jLive
    exact sound.distinct i j k (Or.inr iLent) (Or.inr jLent) ((kept i iLent).symm.trans iStored)
      ((kept j jLent).symm.trans jStored)
  · intro i k iLive iStored
    have iLent := live i iLive
    exact sound.unspent i k (Or.inr iLent) ((kept i iLent).symm.trans iStored)

/-! ## Recording -/

variable [DecidableEq I]

def Table.put (t : Table I K H) (i : I) (k : K) : Table I K H :=
  { t with free := insert i t.free, record := Function.update t.record i (some k) }

theorem Table.Live.of_put {j : I} (live : (t.put i k).Live j) : j = i ∨ t.Live j := by
  rcases live with member | lent
  · exact (Finset.mem_insert.mp member).imp_right Or.inl
  · exact Or.inr (Or.inr lent)

theorem Table.Sound.put (sound : t.Sound) (idle : ¬ t.Live i)
    (fresh : ∀ j, t.Live j → t.record j ≠ some k) (unsettled : k ∉ t.spent) :
    (t.put i k).Sound := by
  have live : ∀ j, (t.put i k).Live j → j = i ∨ (j ≠ i ∧ t.Live j) := by
    intro j live
    exact live.of_put.imp_right fun before => ⟨fun same => idle (same ▸ before), before⟩
  have elsewhere : ∀ j, j ≠ i → (t.put i k).record j = t.record j := fun j other =>
    update_of_ne other _ _
  have here : (t.put i k).record i = some k := update_self _ _ _
  refine ⟨fun j member => ?_, fun h j v lent => ?_, sound.apart, ?_, ?_⟩
  · rcases Finset.mem_insert.mp member with rfl | member
    · exact ⟨k, here⟩
    · obtain ⟨v, stored⟩ := sound.stored j member
      have other : j ≠ i := fun same => idle (same ▸ Or.inl member)
      exact ⟨v, (elsewhere j other).trans stored⟩
  · obtain ⟨stored, notFree⟩ := sound.owned h j v lent
    have other : j ≠ i := fun same => idle (same ▸ Or.inr ⟨h, v, lent⟩)
    exact ⟨(elsewhere j other).trans stored, by simp [Table.put, other, notFree]⟩
  · intro a b v aLive bLive aStored bStored
    rcases live a aLive with aHere | ⟨aOther, aLive⟩ <;>
      rcases live b bLive with bHere | ⟨bOther, bLive⟩
    · exact aHere.trans bHere.symm
    · rw [aHere, here] at aStored
      rw [elsewhere b bOther, ← aStored] at bStored
      exact absurd bStored (fresh b bLive)
    · rw [bHere, here] at bStored
      rw [elsewhere a aOther, ← bStored] at aStored
      exact absurd aStored (fresh a aLive)
    · rw [elsewhere a aOther] at aStored
      rw [elsewhere b bOther] at bStored
      exact sound.distinct a b v aLive bLive aStored bStored
  · intro a v aLive aStored
    rcases live a aLive with rfl | ⟨aOther, aLive⟩
    · rw [here] at aStored
      cases aStored
      exact unsettled
    · rw [elsewhere a aOther] at aStored
      exact sound.unspent a v aLive aStored

/-! ## Lending -/

variable [DecidableEq H]

def Table.take (t : Table I K H) (h : H) (i : I) (k : K) : Table I K H :=
  { t with free := t.free.erase i, held := Function.update t.held h (some (i, k)) }

theorem Table.held_take {g : H} {j : I} {v : K} (held : (t.take h i k).held g = some (j, v)) :
    (g = h ∧ j = i ∧ v = k) ∨ (g ≠ h ∧ t.held g = some (j, v)) := by
  by_cases same : g = h
  · subst same
    simp only [Table.take, update_self] at held
    cases held
    exact Or.inl ⟨rfl, rfl, rfl⟩
  · simp only [Table.take, update_of_ne same] at held
    exact Or.inr ⟨same, held⟩

theorem Table.Live.of_take {j : I} (offered : i ∈ t.free) (live : (t.take h i k).Live j) :
    t.Live j := by
  rcases live with member | ⟨g, v, held⟩
  · exact Or.inl (Finset.mem_of_mem_erase member)
  · rcases Table.held_take held with ⟨_, rfl, _⟩ | ⟨_, before⟩
    · exact Or.inl offered
    · exact Or.inr ⟨g, v, before⟩

theorem Table.Sound.take (sound : t.Sound) (offered : i ∈ t.free) (stored : t.record i = some k) :
    (t.take h i k).Sound := by
  refine ⟨fun j member => sound.stored j (Finset.mem_of_mem_erase member), ?_, ?_, ?_, ?_⟩
  · intro g j v held
    rcases Table.held_take held with ⟨_, rfl, rfl⟩ | ⟨_, held⟩
    · exact ⟨stored, Finset.notMem_erase _ _⟩
    · obtain ⟨record, notFree⟩ := sound.owned g j v held
      exact ⟨record, fun member => notFree (Finset.mem_of_mem_erase member)⟩
  · intro g g' j v v' first second
    rcases Table.held_take first with ⟨gHere, jHere, _⟩ | ⟨_, first⟩ <;>
      rcases Table.held_take second with ⟨gHere', jHere', _⟩ | ⟨_, second⟩
    · exact gHere.trans gHere'.symm
    · exact absurd (jHere ▸ offered) (sound.owned g' j v' second).2
    · exact absurd (jHere' ▸ offered) (sound.owned g j v first).2
    · exact sound.apart g g' j v v' first second
  · exact fun a b v aLive bLive =>
      sound.distinct a b v (aLive.of_take offered) (bLive.of_take offered)
  · exact fun a v aLive => sound.unspent a v (aLive.of_take offered)

def Table.giveBack (t : Table I K H) (h : H) (i : I) : Table I K H :=
  { t with free := insert i t.free, held := Function.update t.held h none }

omit [DecidableEq I] in
theorem update_none_held {held : H → Option (I × K)} {g : H} {pair : I × K}
    (lent : update held h none g = some pair) : g ≠ h ∧ held g = some pair := by
  by_cases same : g = h
  · subst same
    simp at lent
  · rw [update_of_ne same] at lent
    exact ⟨same, lent⟩

theorem Table.Live.of_giveBack {j : I} (lent : t.held h = some (i, k))
    (live : (t.giveBack h i).Live j) : t.Live j := by
  rcases live with member | ⟨g, v, held⟩
  · rcases Finset.mem_insert.mp member with rfl | member
    · exact Or.inr ⟨h, k, lent⟩
    · exact Or.inl member
  · exact Or.inr ⟨g, v, (update_none_held held).2⟩

theorem Table.Sound.giveBack (sound : t.Sound) (lent : t.held h = some (i, k)) :
    (t.giveBack h i).Sound := by
  have record := (sound.owned h i k lent).1
  refine ⟨fun j member => ?_, ?_, ?_, ?_, ?_⟩
  · rcases Finset.mem_insert.mp member with rfl | member
    · exact ⟨k, record⟩
    · exact sound.stored j member
  · intro g j v held
    obtain ⟨other, before⟩ := update_none_held held
    obtain ⟨stored, notFree⟩ := sound.owned g j v before
    refine ⟨stored, fun member => ?_⟩
    rcases Finset.mem_insert.mp member with here | member
    · exact other (sound.apart g h i v k (here ▸ before) lent)
    · exact notFree member
  · intro g g' j v v' first second
    exact sound.apart g g' j v v' (update_none_held first).2 (update_none_held second).2
  · exact fun a b v aLive bLive =>
      sound.distinct a b v (aLive.of_giveBack lent) (bLive.of_giveBack lent)
  · exact fun a v aLive => sound.unspent a v (aLive.of_giveBack lent)

/-! ## Settling -/

def Table.settle (t : Table I K H) (h : H) (i : I) (k : K) : Table I K H :=
  { t with
    record := Function.update t.record i none
    held := Function.update t.held h none
    spent := k :: t.spent }

theorem Table.Live.of_settle (sound : t.Sound) {j : I} (lent : t.held h = some (i, k))
    (live : (t.settle h i k).Live j) : j ≠ i ∧ t.Live j := by
  rcases live with member | ⟨g, v, held⟩
  · exact ⟨fun same => (sound.owned h i k lent).2 (same ▸ member), Or.inl member⟩
  · obtain ⟨other, before⟩ := update_none_held held
    refine ⟨fun same => other ?_, Or.inr ⟨g, v, before⟩⟩
    exact sound.apart g h i v k (same ▸ before) lent

theorem Table.Sound.settle (sound : t.Sound) (lent : t.held h = some (i, k)) :
    (t.settle h i k).Sound := by
  obtain ⟨record, notFree⟩ := sound.owned h i k lent
  have live : ∀ j, (t.settle h i k).Live j → j ≠ i ∧ t.Live j := fun j =>
    Table.Live.of_settle sound lent
  have elsewhere : ∀ j, j ≠ i → (t.settle h i k).record j = t.record j := fun j other =>
    update_of_ne other _ _
  refine ⟨fun j member => ?_, fun g j v held => ?_, ?_, ?_, ?_⟩
  · obtain ⟨v, stored⟩ := sound.stored j member
    have other : j ≠ i := fun same => notFree (same ▸ member)
    exact ⟨v, (elsewhere j other).trans stored⟩
  · have other : j ≠ i := (live j (Or.inr ⟨g, v, held⟩)).1
    obtain ⟨stored, outside⟩ := sound.owned g j v (update_none_held held).2
    exact ⟨(elsewhere j other).trans stored, outside⟩
  · intro g g' j v v' first second
    exact sound.apart g g' j v v' (update_none_held first).2 (update_none_held second).2
  · intro a b v aLive bLive aStored bStored
    obtain ⟨aOther, aLive⟩ := live a aLive
    obtain ⟨bOther, bLive⟩ := live b bLive
    rw [elsewhere a aOther] at aStored
    rw [elsewhere b bOther] at bStored
    exact sound.distinct a b v aLive bLive aStored bStored
  · intro a v aLive aStored
    obtain ⟨other, before⟩ := live a aLive
    rw [elsewhere a other] at aStored
    refine List.not_mem_cons_of_ne_of_not_mem (fun same => other ?_)
      (sound.unspent a v before aStored)
    exact sound.distinct a i k before (Or.inr ⟨h, k, lent⟩) (same ▸ aStored) record

end Operations

end SynergyLib.Leases
