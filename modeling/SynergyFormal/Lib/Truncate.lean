import Mathlib.Algebra.Order.Group.Nat
import Mathlib.Tactic.Ring

/-!
# Rounding down to leading digits

A floating format keeps the leading digits of a number, so the place of the last digit it
keeps grows with the number.  `Grid` is such a choice of places and `truncate` rounds
down to it.  Two truncated numbers compare as the numbers themselves do, and a number of
the format may be compared with the unrounded bound.
-/

set_option autoImplicit false

namespace SynergyLib.Truncate

structure Grid where
  unit : Nat → Nat
  unit_pos : ∀ n, 0 < unit n
  unit_mono : ∀ {a b}, a ≤ b → unit a ≤ unit b
  /-- Rounding down does not leave the range of numbers with the same last place. -/
  unit_stable : ∀ n, unit (n / unit n * unit n) = unit n

namespace Grid

variable (grid : Grid)

def truncate (n : Nat) : Nat := n / grid.unit n * grid.unit n

theorem truncate_le (n : Nat) : grid.truncate n ≤ n := Nat.div_mul_le_self _ _

theorem unit_truncate (n : Nat) : grid.unit (grid.truncate n) = grid.unit n := grid.unit_stable n

theorem truncate_truncate (n : Nat) : grid.truncate (grid.truncate n) = grid.truncate n := by
  rw [truncate, unit_truncate, truncate, Nat.mul_div_cancel _ (grid.unit_pos n)]

theorem truncate_mono {a b : Nat} (le : a ≤ b) : grid.truncate a ≤ grid.truncate b := by
  by_contra greater
  rw [not_le] at greater
  -- between the two results the last place cannot have moved
  have up : grid.unit b ≤ grid.unit a := by
    rw [← grid.unit_truncate b, ← grid.unit_truncate a]
    exact grid.unit_mono greater.le
  have same : grid.unit a = grid.unit b := le_antisymm (grid.unit_mono le) up
  rw [truncate, truncate, same] at greater
  exact absurd (Nat.mul_le_mul_right _ (Nat.div_le_div_right le)) (not_le.mpr greater)

theorem truncate_le_truncate_iff (a b : Nat) :
    grid.truncate a ≤ grid.truncate b ↔ grid.truncate a ≤ b := by
  constructor
  · intro le
    exact le.trans (grid.truncate_le b)
  · intro le
    rw [← grid.truncate_truncate a]
    exact grid.truncate_mono le

end Grid

end SynergyLib.Truncate
