import Mathlib.Data.List.Basic

/-!
# Sessions of a machine that answers calls

A machine takes a call in a state and either stops for good or answers and moves on.
`session` collects the answers to a list of calls and the state at the end, if it is
reached.  `session_agrees_iff` compares a machine with an ideal one through an
abstraction of its states: if one call matches exactly when `ok` holds before it, a
whole session matches exactly when `ok` holds before each of its calls.

`Reached` is the other view of a run: the states it leads to, with the rule that an
invariant of every allowed call holds in all of them.
-/

set_option autoImplicit false

namespace SynergyLib.Session

section Machines
variable {S T C R : Type}

def session (step : S → C → Option (S × R)) : S → List C → List R × Option S
  | state, [] => ([], some state)
  | state, call :: calls =>
    match step state call with
    | none => ([], none)
    | some (next, answer) =>
      let rest := session step next calls
      (answer :: rest.1, rest.2)

/-- `ok` holds of every call of the session, in the state the call finds. -/
def Throughout (step : S → C → Option (S × R)) (ok : S → C → Prop) : S → List C → Prop
  | _, [] => True
  | state, call :: calls =>
    ok state call ∧ ∀ next answer, step state call = some (next, answer) →
      Throughout step ok next calls

section Throughout
variable {step : S → C → Option (S × R)} {ok : S → C → Prop} {state next : S} {call : C}
  {calls : List C} {answer : R}

theorem throughout_cons (moved : step state call = some (next, answer)) :
    Throughout step ok state (call :: calls) ↔ ok state call ∧ Throughout step ok next calls := by
  refine and_congr_right fun _ => ⟨fun along => along next answer moved, fun along => ?_⟩
  intro other given same
  cases moved.symm.trans same
  exact along

theorem throughout_of_invariant (Inv : S → Prop)
    (holds : ∀ state call, Inv state → ok state call)
    (keeps : ∀ state call next answer, Inv state → step state call = some (next, answer) →
      Inv next) : ∀ {state : S}, Inv state → Throughout step ok state calls := by
  induction calls with
  | nil => intro state _; trivial
  | cons call calls ih =>
    intro state initially
    exact ⟨holds state call initially, fun next answer moved =>
      ih (keeps state call next answer initially moved)⟩

/-- `P` holds at the start and after each call. -/
def Always (step : S → C → Option (S × R)) (P : S → Prop) (state : S) (calls : List C) : Prop :=
  P state ∧ Throughout step
    (fun state call => ∀ next answer, step state call = some (next, answer) → P next) state calls

theorem always_cons {P : S → Prop} (moved : step state call = some (next, answer)) :
    Always step P state (call :: calls) ↔ P state ∧ Always step P next calls := by
  rw [Always, throughout_cons moved, Always]
  refine and_congr_right fun _ => and_congr_left fun _ => ⟨fun all => all next answer moved, ?_⟩
  intro holds other given same
  cases moved.symm.trans same
  exact holds

end Throughout

theorem session_agrees_iff (step : S → C → Option (S × R)) (ideal : T → C → Option (T × R))
    (abstract : S → T) (ok : S → C → Prop)
    (stops : ∀ state call, step state call = none →
      ideal (abstract state) call = none ∧ ok state call)
    (moves : ∀ state call next answer, step state call = some (next, answer) →
      ∃ answer', ideal (abstract state) call = some (abstract next, answer') ∧
        (answer' = answer ↔ ok state call)) :
    ∀ (calls : List C) (state : S),
      session ideal (abstract state) calls =
          ((session step state calls).1, (session step state calls).2.map abstract) ↔
        Throughout step ok state calls := by
  intro calls
  induction calls with
  | nil => intro state; simp [session, Throughout]
  | cons call calls ih =>
    intro state
    cases result : step state call with
    | none =>
      obtain ⟨stopped, good⟩ := stops state call result
      simp [session, Throughout, result, stopped, good]
    | some pair =>
      obtain ⟨next, answer⟩ := pair
      obtain ⟨answer', moved, sameAnswer⟩ := moves state call next answer result
      have rest := ih next
      rw [Prod.ext_iff] at rest
      simp only [session, Throughout, result, moved, Prod.ext_iff, List.cons.injEq,
        sameAnswer, and_assoc, rest, Option.some.injEq]
      refine and_congr_right fun _ => ⟨?_, fun along => along next answer ⟨rfl, rfl⟩⟩
      rintro along _ _ ⟨rfl, rfl⟩
      exact along

/-! ## Reachable states -/

/-- The states a machine gets to through calls that meet `ok` where they are made. -/
inductive Reached (step : S → C → Option S) (ok : S → C → Prop) (start : S) : S → Prop where
  | refl : Reached step ok start start
  | call {state next : S} (call : C) : Reached step ok start state → ok state call →
      step state call = some next → Reached step ok start next

theorem Reached.invariant {step : S → C → Option S} {ok : S → C → Prop} {start state : S}
    (reached : Reached step ok start state) (Inv : S → Prop) (initially : Inv start)
    (keeps : ∀ state call next, Inv state → ok state call → step state call = some next →
      Inv next) : Inv state := by
  induction reached with
  | refl => exact initially
  | call call _ allowed moved ih =>
    exact keeps _ call _ ih allowed moved

theorem Reached.mono {step : S → C → Option S} {ok ok' : S → C → Prop} {start state : S}
    (reached : Reached step ok start state) (weaker : ∀ state call, ok state call → ok' state call) :
    Reached step ok' start state :=
  reached.invariant _ .refl fun _ call _ past allowed moved =>
    past.call call (weaker _ call allowed) moved

/-- A list of requests leads along a run if a machine answers them all whose steps are
allowed calls. -/
theorem Reached.of_foldlM {D : Type} {step : S → C → Option S} {careful : S → D → Option S}
    {ok : S → C → Prop} {start : S}
    (sound : ∀ state request next, careful state request = some next →
      ∃ call, ok state call ∧ step state call = some next) (requests : List D) :
    ∀ {state last : S}, Reached step ok start state →
      requests.foldlM careful state = some last → Reached step ok start last := by
  induction requests with
  | nil =>
    intro state last past run
    cases run
    exact past
  | cons request requests ih =>
    intro state last past run
    obtain ⟨next, moved, rest⟩ := Option.bind_eq_some_iff.mp run
    obtain ⟨call, allowed, moves⟩ := sound state request next moved
    exact ih (past.call call allowed moves) rest

end Machines

end SynergyLib.Session
