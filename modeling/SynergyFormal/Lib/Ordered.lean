import Mathlib.Data.List.Pairwise
import Mathlib.Order.Lattice

/-!
# Maps in the order of their keys

A map is the list of its entries, strictly increasing in the key, as an iterator visits them.
Inserting writes over the entry of an equal key.  The first entry of a map changes only if the
new key is at most the first one.
-/

set_option autoImplicit false

namespace SynergyLib.Ordered

structure OrderedMap (K V : Type) [LinearOrder K] where
  entries : List (K × V)
  increasing : entries.Pairwise fun a b => a.1 < b.1

section Map
variable {K V : Type} [LinearOrder K]

def OrderedMap.empty : OrderedMap K V := ⟨[], List.Pairwise.nil⟩

def lookupIn (key : K) : List (K × V) → Option V
  | [] => none
  | entry :: rest => if entry.1 = key then some entry.2 else lookupIn key rest

def insertIn (key : K) (value : V) : List (K × V) → List (K × V)
  | [] => [(key, value)]
  | entry :: rest =>
    if key < entry.1 then (key, value) :: entry :: rest
    else if key = entry.1 then (key, value) :: rest
    else entry :: insertIn key value rest

variable {key : K} {entries : List (K × V)} {value : V}

theorem mem_of_insertIn {entry : K × V} (member : entry ∈ insertIn key value entries) :
    entry = (key, value) ∨ entry ∈ entries := by
  induction entries with
  | nil => exact Or.inl (List.mem_singleton.mp member)
  | cons first rest ih =>
    unfold insertIn at member
    split_ifs at member
    · exact List.mem_cons.mp member
    · exact (List.mem_cons.mp member).imp_right (List.mem_cons_of_mem first)
    · rcases List.mem_cons.mp member with here | later
      · exact Or.inr (here ▸ List.mem_cons_self)
      · exact (ih later).imp_right (List.mem_cons_of_mem first)

theorem insertIn_increasing (increasing : entries.Pairwise fun a b => a.1 < b.1) :
    (insertIn key value entries).Pairwise fun a b => a.1 < b.1 := by
  induction entries with
  | nil => exact List.pairwise_singleton _ _
  | cons first rest ih =>
    have behind : ∀ entry ∈ rest, first.1 < entry.1 := fun entry later =>
      List.rel_of_pairwise_cons increasing later
    unfold insertIn
    split_ifs with less same
    · refine increasing.cons fun entry member => ?_
      rcases List.mem_cons.mp member with here | later
      · rw [here]
        exact less
      · exact lt_trans less (behind entry later)
    · refine increasing.of_cons.cons fun entry later => ?_
      rw [same]
      exact behind entry later
    · refine (ih increasing.of_cons).cons fun entry member => ?_
      rcases mem_of_insertIn member with new | later
      · rw [new]
        exact lt_of_le_of_ne (not_lt.mp less) (Ne.symm same)
      · exact behind entry later

theorem lookupIn_insertIn {other : K} : lookupIn other (insertIn key value entries) =
      if other = key then some value else lookupIn other entries := by
  induction entries with
  | nil => simp only [insertIn, lookupIn, eq_comm]
  | cons first rest ih =>
    by_cases less : key < first.1
    · rw [insertIn, if_pos less, lookupIn]
      simp only [eq_comm]
    · rw [insertIn, if_neg less]
      by_cases same : key = first.1
      · rw [if_pos same, lookupIn, lookupIn, ← same]
        simp only [eq_comm]
        split_ifs <;> rfl
      · rw [if_neg same, lookupIn, lookupIn, ih]
        by_cases here : other = key
        · rw [if_pos here, if_pos here, if_neg (here ▸ Ne.symm same)]
        · rw [if_neg here, if_neg here]

theorem lookupIn_eq_some_iff (increasing : entries.Pairwise fun a b => a.1 < b.1) :
    lookupIn key entries = some value ↔ (key, value) ∈ entries := by
  induction entries with
  | nil => simp [lookupIn]
  | cons first rest ih =>
    rw [lookupIn, List.mem_cons]
    split_ifs with here
    · rw [Option.some.injEq]
      constructor
      · intro same
        left
        rw [← here, ← same]
      · intro member
        rcases member with first | later
        · rw [← first]
        · have behind : first.1 < key := List.rel_of_pairwise_cons increasing later
          exact absurd here (ne_of_lt behind)
    · rw [ih increasing.of_cons]
      constructor
      · exact Or.inr
      · intro member
        rcases member with first | later
        · exact absurd (congrArg Prod.fst first).symm here
        · exact later

/-! ## Operations on maps -/

namespace OrderedMap
variable (map : OrderedMap K V)

def lookup (key : K) : Option V := lookupIn key map.entries

def insert (key : K) (value : V) : OrderedMap K V :=
  ⟨insertIn key value map.entries, insertIn_increasing map.increasing⟩

def keys : List K := map.entries.map Prod.fst

/-- `map.begin()`. -/
def first : Option (K × V) := map.entries.head?

theorem lookup_insert (key other : K) (value : V) :
    (map.insert key value).lookup other = if other = key then some value else map.lookup other :=
  lookupIn_insertIn

variable {map}

variable {entry : K × V}

theorem lookup_eq_some_iff : map.lookup key = some value ↔ (key, value) ∈ map.entries :=
  lookupIn_eq_some_iff map.increasing

theorem lookup_first (begins : map.first = some entry) : map.lookup entry.1 = some entry.2 :=
  lookup_eq_some_iff.mpr (List.mem_of_head? begins)

theorem first_eq_some_iff : map.first = some entry ↔ ∃ rest, map.entries = entry :: rest :=
  List.head?_eq_some_iff

theorem first_insert_first (begins : map.first = some entry) :
    (map.insert entry.1 value).first = some (entry.1, value) := by
  obtain ⟨rest, shape⟩ := first_eq_some_iff.mp begins
  apply first_eq_some_iff.mpr
  refine ⟨rest, ?_⟩
  change insertIn entry.1 value map.entries = (entry.1, value) :: rest
  rw [shape, insertIn, if_neg (lt_irrefl _), if_pos rfl]

theorem first_insert_of_lt (begins : map.first = some entry) (greater : entry.1 < key) :
    (map.insert key value).first = some entry := by
  obtain ⟨rest, shape⟩ := first_eq_some_iff.mp begins
  apply first_eq_some_iff.mpr
  refine ⟨insertIn key value rest, ?_⟩
  change insertIn key value map.entries = entry :: insertIn key value rest
  rw [shape, insertIn, if_neg (not_lt_of_gt greater), if_neg (ne_of_gt greater)]

theorem first_le (begins : map.first = some entry) (found : map.lookup key = some value) :
    entry.1 ≤ key := by
  have member := lookup_eq_some_iff.mp found
  obtain ⟨rest, shape⟩ := first_eq_some_iff.mp begins
  have increasing := map.increasing
  rw [shape] at increasing member
  rcases List.mem_cons.mp member with here | later
  · rw [← here]
  · have behind : entry.1 < key := List.rel_of_pairwise_cons increasing later
    exact le_of_lt behind

theorem first_isSome (found : map.lookup key = some value) : ∃ entry, map.first = some entry := by
  have member := lookup_eq_some_iff.mp found
  unfold first
  cases shape : map.entries with
  | nil =>
    rw [shape] at member
    exact absurd member List.not_mem_nil
  | cons head rest => exact ⟨head, rfl⟩

theorem mem_keys : key ∈ map.keys ↔ ∃ value, map.lookup key = some value := by
  simp only [keys, List.mem_map, lookup_eq_some_iff]
  constructor
  · intro found
    obtain ⟨entry, member, same⟩ := found
    exact ⟨entry.2, same ▸ member⟩
  · intro found
    obtain ⟨value, member⟩ := found
    exact ⟨(key, value), member, rfl⟩

end OrderedMap

end Map

end SynergyLib.Ordered
