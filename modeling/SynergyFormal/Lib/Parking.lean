import Mathlib.Data.Finset.Basic
import Mathlib.Data.List.AList

/-!
# Items that wait for their parent

Items are parked in a map by their own key and, at the same time, in a multimap by the key
of the parent they wait for.  Beside the two stands the set of the labels the parked items
carry, where an item may have none.  `Filed` says that map and multimap hold the same items,
`Labelled` that the set is exact, and `Apart` that no two items share a label; without it,
taking out one item would take the label from the other.
-/

set_option autoImplicit false

namespace SynergyLib.Parking

open List hiding insert mem_range range

variable {K V L : Type} [DecidableEq K]

/-- The items under a key of a multimap, in the order in which they were put in. -/
def range (byParent : List (K × V)) (parent : K) : List V :=
  (byParent.filter fun entry => entry.1 = parent).map Prod.snd

def without (key : V → K) (byParent : List (K × V)) (item : V) : List (K × V) :=
  byParent.filter fun entry => key entry.2 ≠ key item

theorem mem_range {byParent : List (K × V)} {parent : K} {item : V} :
    item ∈ range byParent parent ↔ (parent, item) ∈ byParent := by
  simp [range]

section Items
variable (key parent : V → K) (label : V → Option L)

structure Filed (byKey : AList fun _ : K => V) (byParent : List (K × V)) : Prop where
  keyed : ∀ p item, (p, item) ∈ byParent → p = parent item
  same : ∀ k item, byKey.lookup k = some item ↔ (parent item, item) ∈ byParent ∧ key item = k
  once : (byParent.map fun entry => key entry.2).Nodup

def Labelled (labels : Finset L) (byParent : List (K × V)) : Prop :=
  ∀ l, l ∈ labels ↔ ∃ entry ∈ byParent, label entry.2 = some l

def Apart (byParent : List (K × V)) : Prop :=
  ∀ a ∈ byParent, ∀ b ∈ byParent, ∀ l, label a.2 = some l → label b.2 = some l →
    key a.2 = key b.2

end Items

section Rules
variable {key parent : V → K} {label : V → Option L} {byKey : AList fun _ : K => V}
  {byParent : List (K × V)} {item : V}

theorem mem_without {entry : K × V} :
    entry ∈ without key byParent item ↔ entry ∈ byParent ∧ key entry.2 ≠ key item := by
  simp [without]

theorem Filed.park (filed : Filed key parent byKey byParent)
    (absent : byKey.lookup (key item) = none) :
    Filed key parent (byKey.insert (key item) item) (byParent ++ [(parent item, item)]) := by
  have fresh : ∀ entry ∈ byParent, key entry.2 ≠ key item := by
    rintro ⟨p, other⟩ member same
    have own := filed.keyed p other member
    have found := (filed.same (key item) other).mpr ⟨own ▸ member, same⟩
    rw [absent] at found
    cases found
  refine ⟨fun p other member => ?_, fun k other => ?_, ?_⟩
  · rcases mem_append.mp member with old | new
    · exact filed.keyed p other old
    · cases mem_singleton.mp new
      rfl
  · rw [mem_append, mem_singleton, Prod.mk.injEq]
    by_cases here : k = key item
    · subst here
      rw [AList.lookup_insert, Option.some.injEq]
      constructor
      · rintro rfl
        exact ⟨Or.inr ⟨rfl, rfl⟩, rfl⟩
      · rintro ⟨old | ⟨_, rfl⟩, same⟩
        · exact absurd same (fresh _ old)
        · rfl
    · rw [AList.lookup_insert_ne here, filed.same k other]
      constructor
      · rintro ⟨old, same⟩
        exact ⟨Or.inl old, same⟩
      · rintro ⟨old | ⟨_, rfl⟩, same⟩
        · exact ⟨old, same⟩
        · exact absurd same.symm here
  · rw [map_append, nodup_append]
    refine ⟨filed.once, by simp, ?_⟩
    rintro k old l new rfl
    obtain ⟨entry, member, same⟩ := List.mem_map.mp old
    rw [map_singleton, mem_singleton] at new
    exact fresh entry member (same.trans new)

theorem Filed.take (filed : Filed key parent byKey byParent) :
    Filed key parent (byKey.erase (key item)) (without key byParent item) := by
  refine ⟨fun p other member => filed.keyed p other (mem_without.mp member).1, fun k other => ?_,
    filed.once.sublist (filter_sublist.map _)⟩
  rw [mem_without]
  by_cases here : k = key item
  · subst here
    rw [AList.lookup_erase]
    constructor
    · intro impossible
      cases impossible
    · rintro ⟨⟨_, different⟩, same⟩
      exact absurd same different
  · rw [AList.lookup_erase_ne here, filed.same k other]
    constructor
    · rintro ⟨member, rfl⟩
      exact ⟨⟨member, here⟩, rfl⟩
    · rintro ⟨⟨member, _⟩, same⟩
      exact ⟨member, same⟩

omit [DecidableEq K] in
theorem Apart.park (apart : Apart key label byParent)
    (fresh : ∀ l, label item = some l → ∀ entry ∈ byParent, label entry.2 ≠ some l) :
    Apart key label (byParent ++ [(parent item, item)]) := by
  intro a aIn b bIn l aLabel bLabel
  rcases mem_append.mp aIn with aOld | aNew
  · rcases mem_append.mp bIn with bOld | bNew
    · exact apart a aOld b bOld l aLabel bLabel
    · rw [mem_singleton.mp bNew] at bLabel
      exact absurd aLabel (fresh l bLabel a aOld)
  · rw [mem_singleton.mp aNew] at aLabel ⊢
    rcases mem_append.mp bIn with bOld | bNew
    · exact absurd bLabel (fresh l aLabel b bOld)
    · rw [mem_singleton.mp bNew]

theorem Apart.take (apart : Apart key label byParent) :
    Apart key label (without key byParent item) :=
  fun a aIn b bIn => apart a (mem_without.mp aIn).1 b (mem_without.mp bIn).1

section Labels
variable [DecidableEq L] {labels : Finset L}

omit [DecidableEq K] in
theorem Labelled.park {l : L} (labelled : Labelled label labels byParent)
    (own : label item = some l) :
    Labelled label (insert l labels) (byParent ++ [(parent item, item)]) := by
  intro m
  rw [Finset.mem_insert, labelled m]
  constructor
  · rintro (rfl | ⟨entry, member, same⟩)
    · exact ⟨(parent item, item), by simp, own⟩
    · exact ⟨entry, mem_append_left _ member, same⟩
  · rintro ⟨entry, member, same⟩
    rcases mem_append.mp member with old | new
    · exact Or.inr ⟨entry, old, same⟩
    · rw [mem_singleton.mp new, own] at same
      exact Or.inl (Option.some.inj same).symm

omit [DecidableEq K] [DecidableEq L] in
theorem Labelled.park_unlabelled (labelled : Labelled label labels byParent)
    (own : label item = none) :
    Labelled label labels (byParent ++ [(parent item, item)]) := by
  intro m
  rw [labelled m]
  constructor
  · rintro ⟨entry, member, same⟩
    exact ⟨entry, mem_append_left _ member, same⟩
  · rintro ⟨entry, member, same⟩
    rcases mem_append.mp member with old | new
    · exact ⟨entry, old, same⟩
    · rw [mem_singleton.mp new, own] at same
      cases same

theorem Labelled.take {l : L} {p : K} (labelled : Labelled label labels byParent)
    (filed : Filed key parent byKey byParent) (member : (p, item) ∈ byParent)
    (own : ∀ m, label item = some m → m = l)
    (only : ∀ entry ∈ byParent, label entry.2 = some l → key entry.2 = key item) :
    Labelled label (labels.erase l) (without key byParent item) := by
  intro m
  rw [Finset.mem_erase, labelled m]
  constructor
  · rintro ⟨different, entry, inside, same⟩
    refine ⟨entry, mem_without.mpr ⟨inside, fun sameKey => different ?_⟩, same⟩
    have entries : entry = (p, item) := inj_on_of_nodup_map filed.once inside member sameKey
    rw [entries] at same
    exact own m same
  · rintro ⟨entry, inside, same⟩
    obtain ⟨old, different⟩ := mem_without.mp inside
    refine ⟨?_, entry, old, same⟩
    rintro rfl
    exact different (only entry old same)

end Labels

end Rules

end SynergyLib.Parking
