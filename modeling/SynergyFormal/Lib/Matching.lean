import Mathlib.Data.List.NodupEquivFin
import Mathlib.Data.List.Forall2

/-!
# Ordered matchings

A list is matched in order with another when its elements fit elements of the other at strictly
increasing places.  The first element may always be given the first place that fits, which is what
a single greedy pass does.
-/

set_option autoImplicit false

namespace SynergyLib.Matching

open List

section Matching
variable {A B : Type} {fits : A → B → Prop}

/-- Strictly increasing places at which the elements fit. -/
def Matched (fits : A → B → Prop) (items : List A) (places : List B) : Prop :=
  ∃ f : Fin items.length → Fin places.length, StrictMono f ∧
    ∀ i, fits (items.get i) (places.get (f i))

variable {items : List A} {places : List B} {item : A} {place : B}

theorem matched_iff_sublist : Matched fits items places ↔ SublistForall₂ fits items places := by
  rw [sublistForall₂_iff]
  constructor
  · rintro ⟨f, increasing, each⟩
    have sameLength : (ofFn fun i => places.get (f i)).length = items.length := length_ofFn
    refine ⟨ofFn fun i => places.get (f i), ?_, ?_⟩
    · rw [forall₂_iff_get]
      refine ⟨sameLength.symm, fun i inside _ => ?_⟩
      simpa using each ⟨i, inside⟩
    · rw [sublist_iff_exists_fin_orderEmbedding_get_eq]
      let cast : Fin (ofFn fun i => places.get (f i)).length ↪o Fin items.length :=
        (Fin.castOrderIso sameLength).toOrderEmbedding
      exact ⟨cast.trans (OrderEmbedding.ofStrictMono f increasing), fun i => get_ofFn _ i⟩
  · rintro ⟨chosen, each, sub⟩
    obtain ⟨sameLength, pointwise⟩ := forall₂_iff_get.mp each
    obtain ⟨f, found⟩ := sublist_iff_exists_fin_orderEmbedding_get_eq.mp sub
    refine ⟨fun i => f (Fin.cast sameLength i), fun i j less => ?_, fun i => ?_⟩
    · exact f.strictMono (by simpa using less)
    · have here := pointwise i i.isLt (by rw [← sameLength]; exact i.isLt)
      rw [found] at here
      exact here

theorem sublist_tail (matched : SublistForall₂ fits (item :: items) places) :
    SublistForall₂ fits items places := by
  induction places with
  | nil => cases matched
  | cons place places ih =>
    cases matched with
    | cons _ rest => exact rest.cons_right
    | cons_right rest => exact (ih rest).cons_right

/-- A place that fits the first element can be taken: whatever matches without it matches the
rest. -/
theorem sublist_cons_of_fits (fit : fits item place) :
    SublistForall₂ fits (item :: items) (place :: places) ↔ SublistForall₂ fits items places := by
  constructor
  · intro matched
    cases matched with
    | cons _ rest => exact rest
    | cons_right rest => exact sublist_tail rest
  · exact SublistForall₂.cons fit

theorem sublist_cons_of_not_fits (misfit : ¬ fits item place) :
    SublistForall₂ fits (item :: items) (place :: places) ↔
      SublistForall₂ fits (item :: items) places := by
  constructor
  · intro matched
    cases matched with
    | cons fit _ => exact absurd fit misfit
    | cons_right rest => exact rest
  · exact SublistForall₂.cons_right

theorem sublist_length (matched : SublistForall₂ fits items places) :
    items.length ≤ places.length := by
  obtain ⟨chosen, each, sub⟩ := sublistForall₂_iff.mp matched
  rw [each.length_eq]
  exact sub.length_le

end Matching

end SynergyLib.Matching
