import Mathlib.Data.List.Basic

/-!
# Failures with reasons

A partial computation can be written twice: with the reason of each failure, as the program
meets it, and without.  `Explains` says that both succeed with the same value and that every
reason that can occur is a harmless one.  It composes along the steps of a computation, so that
the absence of the other reasons is checked step by step.
-/

set_option autoImplicit false

namespace SynergyLib.Reasons

section Explains
variable {E α β : Type} {harmless : E → Prop}

def Explains (harmless : E → Prop) : Except E α → Option α → Prop
  | .ok value, outcome => outcome = some value
  | .error reason, outcome => harmless reason ∧ outcome = none

variable {value : α} {reason : E} {next : α → Except E β}

theorem explains_ok : Explains harmless (Except.ok value) (some value) := rfl

theorem explains_error (fine : harmless reason) :
    Explains harmless (Except.error reason) (none : Option α) := ⟨fine, rfl⟩

theorem ok_bind : (Except.ok value >>= next) = next value := rfl

variable {run : Except E α} {outcome : Option α}

section Explains
variable (first : Explains harmless run outcome)
include first

theorem Explains.bind {continuation : α → Option β}
    (then_ : ∀ value, run = .ok value → Explains harmless (next value) (continuation value)) :
    Explains harmless (run >>= next) (outcome >>= continuation) := by
  cases run with
  | error reason =>
    obtain ⟨fine, rfl⟩ := first
    exact ⟨fine, rfl⟩
  | ok value =>
    obtain rfl : outcome = some value := first
    exact then_ value rfl

theorem Explains.map (f : α → β) :
    Explains harmless (run >>= fun value => Except.ok (f value)) (outcome.map f) := by
  rw [Option.map_eq_bind]
  exact first.bind fun _ _ => rfl

theorem Explains.filter {good : α → Bool} {bad : α → Prop} [DecidablePred bad]
    (fine : harmless reason) (opposite : ∀ value, good value = true ↔ ¬ bad value) :
    Explains harmless (run >>= fun value => if bad value then Except.error reason else .ok value)
      (outcome.filter good) := by
  rw [← Option.bind_guard]
  refine first.bind fun value _ => ?_
  by_cases refused : bad value
  · have dropped : ¬ good value = true := fun kept => (opposite value).mp kept refused
    rw [if_pos refused, Option.guard, if_neg dropped]
    exact explains_error fine
  · rw [if_neg refused, Option.guard, if_pos ((opposite value).mpr refused)]
    exact explains_ok

theorem Explains.toOption : run.toOption = outcome := by
  cases run with
  | error reason => exact first.2.symm
  | ok value => exact Eq.symm first

theorem Explains.eq_some (done : run = .ok value) : outcome = some value := by
  subst done
  exact first

end Explains

end Explains

end SynergyLib.Reasons
