import Mathlib.Algebra.BigOperators.Fin
import Mathlib.Algebra.Order.BigOperators.Group.Finset
import Mathlib.Data.Finset.Card

/-!
# Members of a family of buckets

Two kinds of buckets: sets, where `refs` is the number of buckets that hold a member, and
lists, where `places` is the number of places at which a member stands.  The lemmas say
how the two counts move when one bucket changes, and what they add up to.
-/

set_option autoImplicit false

namespace SynergyLib.Buckets

open Function

open scoped BigOperators

variable {B N : Type} [Fintype B]

theorem sum_update {M : Type} [DecidableEq B] (weight : M → ℕ) (table : B → M) (b : B) (value : M) :
    ∑ c, weight (update table b value c) + weight (table b) =
      ∑ c, weight (table c) + weight value := by
  have before := Finset.add_sum_erase Finset.univ (fun c => weight (table c)) (Finset.mem_univ b)
  have after := Finset.add_sum_erase Finset.univ
    (fun c => weight (update table b value c)) (Finset.mem_univ b)
  have elsewhere : ∑ c ∈ Finset.univ.erase b, weight (update table b value c) =
      ∑ c ∈ Finset.univ.erase b, weight (table c) := by
    apply Finset.sum_congr rfl
    intro c member
    rw [update_of_ne (Finset.ne_of_mem_erase member)]
  rw [elsewhere, update_self] at after
  omega

/-! ## Sets -/

section Sets
variable [DecidableEq N]

def refs (table : B → Finset N) (n : N) : ℕ := (Finset.univ.filter fun b => n ∈ table b).card

variable {table : B → Finset N} {n m : N}

theorem refs_eq_zero : refs table n = 0 ↔ ∀ b, n ∉ table b := by
  simp [refs, Finset.card_eq_zero, Finset.filter_eq_empty_iff]

variable {b : B} {other : B → Finset N}

theorem refs_pos (member : n ∈ table b) : 0 < refs table n := Finset.card_pos.mpr ⟨b, by simp [member]⟩

theorem refs_congr (same : ∀ b, n ∈ table b ↔ m ∈ other b) : refs table n = refs other m := by
  simp only [refs, same]

theorem refs_eraseAll : refs (fun b => (table b).erase n) n = 0 := by
  simp [refs_eq_zero]

theorem refs_eraseAll_of_ne (other : m ≠ n) : refs (fun b => (table b).erase n) m = refs table m :=
  refs_congr fun b => by simp [other]

theorem refs_mono (subset : ∀ b, table b ⊆ other b) : refs table n ≤ refs other n := by
  apply Finset.card_le_card
  intro b
  simpa using fun member => subset b member

theorem sum_card {members : Finset N} (within : ∀ b, table b ⊆ members) :
    ∑ b, (table b).card = ∑ n ∈ members, refs table n := by
  have count : ∀ b, (table b).card = ∑ n ∈ members, if n ∈ table b then 1 else 0 := by
    intro b
    rw [Finset.sum_ite_mem, Finset.inter_eq_right.mpr (within b)]
    simp
  simp only [count, refs, Finset.card_filter]
  exact Finset.sum_comm

variable [DecidableEq B]

theorem refs_update (table : B → Finset N) (b : B) (members : Finset N) (n : N) :
    refs (update table b members) n + (if n ∈ table b then 1 else 0) =
      refs table n + if n ∈ members then 1 else 0 := by
  simp only [refs, Finset.card_filter]
  exact sum_update (fun members => if n ∈ members then 1 else 0) table b members

theorem refs_insert (absent : n ∉ table b) :
    refs (update table b (insert n (table b))) n = refs table n + 1 := by
  have moved := refs_update table b (insert n (table b)) n
  rwa [if_neg absent, if_pos (Finset.mem_insert_self n _)] at moved

theorem refs_insert_of_ne (other : m ≠ n) :
    refs (update table b (insert n (table b))) m = refs table m := by
  have moved := refs_update table b (insert n (table b)) m
  simpa [other] using moved

theorem refs_erase_of_ne (other : m ≠ n) :
    refs (update table b ((table b).erase n)) m = refs table m := by
  have moved := refs_update table b ((table b).erase n) m
  simpa [other] using moved

theorem refs_erase (member : n ∈ table b) :
    refs (update table b ((table b).erase n)) n + 1 = refs table n := by
  have moved := refs_update table b ((table b).erase n) n
  rwa [if_pos member, if_neg (Finset.notMem_erase n _)] at moved

/-- The buckets filled from a list of pairs. -/
def ofPairs (pairs : List (B × N)) (b : B) : Finset N :=
  ((pairs.filter fun pair => pair.1 = b).map Prod.snd).toFinset

omit [Fintype B] in
theorem mem_ofPairs {pairs : List (B × N)} : n ∈ ofPairs pairs b ↔ (b, n) ∈ pairs := by
  simp [ofPairs]

omit [Fintype B] in
theorem ofPairs_snoc {pairs : List (B × N)} : ofPairs (pairs ++ [(b, n)]) =
      update (ofPairs pairs) b (insert n (ofPairs pairs b)) := by
  funext c
  ext m
  by_cases here : c = b
  · subst here
    simp [mem_ofPairs, or_comm]
  · simp [mem_ofPairs, here]

end Sets

/-! ## Lists -/

section Lists
variable [DecidableEq N]

def places (table : B → List N) (n : N) : ℕ := ∑ b, (table b).count n

theorem places_eq_zero {table : B → List N} {n : N} : places table n = 0 ↔ ∀ b, n ∉ table b := by
  simp [places, Finset.sum_eq_zero_iff, List.count_eq_zero]

theorem places_update [DecidableEq B] (table : B → List N) (b : B) (list : List N) (n : N) :
    places (update table b list) n + (table b).count n = places table n + list.count n :=
  sum_update (fun members => members.count n) table b list

theorem places_append [DecidableEq B] (table : B → List N) (b : B) (last n : N) :
    places (update table b (table b ++ [last])) n =
      places table n + if last = n then 1 else 0 := by
  have moved := places_update table b (table b ++ [last]) n
  rw [List.count_append, List.count_singleton] at moved
  simp only [beq_iff_eq] at moved
  omega

theorem sum_length {table : B → List N} {members : Finset N}
    (within : ∀ b, ∀ n ∈ table b, n ∈ members) :
    ∑ b, (table b).length = ∑ n ∈ members, places table n := by
  have count : ∀ b, (table b).length = ∑ n ∈ members, (table b).count n := by
    intro b
    have subset : (table b).toFinset ⊆ members := fun n member =>
      within b n (List.mem_toFinset.mp member)
    rw [← List.sum_toFinset_count_eq_length]
    apply Finset.sum_subset subset
    intro n _ outside
    exact List.count_eq_zero.mpr fun member => outside (List.mem_toFinset.mpr member)
  simp only [count, places]
  exact Finset.sum_comm

theorem sum_length_filter {M : Type} [DecidableEq B] {bucket : M → B} {list : List M} :
    ∑ b, (list.filter fun a => bucket a = b).length = list.length := by
  induction list with
  | nil => simp
  | cons a rest ih =>
    have head : ∀ b, ((a :: rest).filter fun x => bucket x = b).length =
        (rest.filter fun x => bucket x = b).length + if bucket a = b then 1 else 0 := by
      intro b
      by_cases here : bucket a = b
      · simp [here]
      · simp [here]
    simp only [head, Finset.sum_add_distrib, ih]
    simp

end Lists

end SynergyLib.Buckets
