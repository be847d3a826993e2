import Mathlib.Data.List.Nodup
import Mathlib.Logic.Function.Basic

/-!
# Partial maps that are inverse to each other

A table and its index: `f` finds the `b` filed under `a`, `g` finds where `b` is filed.
Entering and erasing a pair keep the two inverse.  When the table is a list with its
positions as keys, `g` tells the position of each element, and the operations are the
three of a list that is shuffled in place: append, swap two places, drop the last.
-/

set_option autoImplicit false

namespace SynergyLib.Directory

open Option Function

variable {A B : Type}

def Inverse (f : A → Option B) (g : B → Option A) : Prop := ∀ a b, f a = some b ↔ g b = some a

section Pairs
variable [DecidableEq A] [DecidableEq B]

variable {a : A} {g : B → Option A} {f : A → Option B} {b : B}

theorem Inverse.insert (inverse : Inverse f g) (newKey : f a = none) (newValue : g b = none) :
    Inverse (update f a (some b)) (update g b (some a)) := by
  intro x y
  by_cases atKey : x = a <;> by_cases atValue : y = b
  · subst atKey atValue
    simp
  · subst atKey
    have absent : g y ≠ some x := fun found => by simp [(inverse x y).mpr found] at newKey
    simp [update_of_ne atValue, absent, Ne.symm atValue]
  · subst atValue
    have absent : f x ≠ some y := fun found => by simp [(inverse x y).mp found] at newValue
    simp [update_of_ne atKey, absent, Ne.symm atKey]
  · rw [update_of_ne atKey, update_of_ne atValue]
    exact inverse x y

theorem Inverse.erase (inverse : Inverse f g) (filed : f a = some b) :
    Inverse (update f a none) (update g b none) := by
  intro x y
  by_cases atKey : x = a <;> by_cases atValue : y = b
  · subst atKey atValue
    simp
  · subst atKey
    have absent : g y ≠ some x := fun found => by
      have both := filed.symm.trans ((inverse x y).mpr found)
      exact atValue (some.inj both).symm
    simp [update_of_ne atValue, absent]
  · subst atValue
    have absent : f x ≠ some y := fun found => by
      have both := ((inverse a y).mp filed).symm.trans ((inverse x y).mp found)
      exact atKey (some.inj both).symm
    simp [update_of_ne atKey, absent]
  · rw [update_of_ne atKey, update_of_ne atValue]
    exact inverse x y

end Pairs

/-! ## Lists with their positions -/

section Positions
variable {list : List B} {position : B → Option ℕ}

def Locates (list : List B) (position : B → Option ℕ) : Prop :=
  ∀ i b, list[i]? = some b ↔ position b = some i

variable {b : B}

theorem getElem?_concat : ((list ++ [b])[·]?) = update (list[·]?) list.length (some b) := by
  funext i
  grind [update]

variable (locates : Locates list position)
include locates

theorem Locates.nodup : list.Nodup := by
  rw [List.nodup_iff_getElem?_ne_getElem?]
  intro i j before bound same
  have here := (locates j list[j]).mp (List.getElem?_eq_getElem bound)
  have there := (locates i list[j]).mp (same.trans (List.getElem?_eq_getElem bound))
  exact (Nat.ne_of_lt before) (some.inj (there.symm.trans here))

theorem Locates.mem_iff : b ∈ list ↔ ∃ i, position b = some i := by
  rw [List.mem_iff_getElem?]
  exact exists_congr fun i => locates i b

variable [DecidableEq B]

theorem Locates.append (absent : position b = none) :
    Locates (list ++ [b]) (update position b (some list.length)) := by
  have added := Inverse.insert locates (List.getElem?_eq_none (Nat.le_refl _)) absent
  rwa [← getElem?_concat] at added

/-- Both places are emptied and filled again. -/
theorem Locates.exchange {i j : ℕ} {c : B} (first : list[i]? = some b)
    (second : list[j]? = some c) (differ : i ≠ j) :
    Locates ((list.set i c).set j b) (update (update position b (some j)) c (some i)) := by
  have iBound := (List.getElem?_eq_some_iff.mp first).1
  have jBound := (List.getElem?_eq_some_iff.mp second).1
  have apart : b ≠ c := by
    rintro rfl
    have both := ((locates i b).mp first).symm.trans ((locates j b).mp second)
    exact differ (some.inj both)
  have emptied := (Inverse.erase locates first).erase (a := j) (b := c)
    (by simp [differ.symm, second])
  have filled := (emptied.insert (a := i) (b := c) (by simp [differ]) (by simp)).insert (a := j)
    (b := b) (by simp [differ.symm]) (by simp [apart])
  have table : (fun k => ((list.set i c).set j b)[k]?) =
      update (update (update (update (list[·]?) i none) j none) i (some c)) j (some b) := by
    funext k
    grind [update]
  have places : update (update position b (some j)) c (some i) =
      update (update (update (update position b none) c none) c (some i)) b (some j) := by
    funext x
    grind [update]
  rwa [← table, ← places] at filled

theorem Locates.dropLast (last : list[list.length - 1]? = some b) :
    Locates list.dropLast (update position b none) := by
  have table : (fun i => list.dropLast[i]?) = update (list[·]?) (list.length - 1) none := by
    funext i
    grind [update]
  have erased := Inverse.erase locates last
  rwa [← table] at erased

end Positions

end SynergyLib.Directory
