import Mathlib.Data.List.Basic

/-!
# Loops that may stop early

A loop over a list whose body fails with `none`.  A finished loop has kept whatever
every pass keeps, and has seen every element pass; two loops whose passes correspond
get through together.  A loop gets through if every pass does, given what holds of the
elements before it; in a sorted list these include whatever lies below.
-/

set_option autoImplicit false

namespace SynergyLib.Loop

theorem foldlM_rule {S A : Type} {step : S → A → Option S} (Inv : S → Prop) (Passed : A → Prop)
    (pass : ∀ state a next, Inv state → step state a = some next → Inv next ∧ Passed a)
    (list : List A) : ∀ {start last : S}, Inv start → list.foldlM step start = some last →
      Inv last ∧ ∀ a ∈ list, Passed a := by
  induction list with
  | nil =>
    intro start last holds run
    cases run
    exact ⟨holds, by simp⟩
  | cons a list ih =>
    intro start last holds run
    obtain ⟨next, first, rest⟩ := Option.bind_eq_some_iff.mp run
    obtain ⟨kept, passed⟩ := pass start a next holds first
    obtain ⟨final, others⟩ := ih kept rest
    exact ⟨final, List.forall_mem_cons.mpr ⟨passed, others⟩⟩

theorem foldlM_done {S A : Type} {step : S → A → Option S} (Inv : List A → S → Prop) (list : List A)
    (pass : ∀ done a rest state, list = done ++ a :: rest → Inv done state →
      ∃ next, step state a = some next ∧ Inv (done ++ [a]) next)
    {start : S} (initially : Inv [] start) :
    ∃ last, list.foldlM step start = some last ∧ Inv list last := by
  have from_here : ∀ (rest done : List A) (state : S), list = done ++ rest → Inv done state →
      ∃ last, rest.foldlM step state = some last ∧ Inv list last := by
    intro rest
    induction rest with
    | nil =>
      intro done state split holds
      rw [List.append_nil] at split
      exact ⟨state, rfl, split ▸ holds⟩
    | cons a rest ih =>
      intro done state split holds
      obtain ⟨next, moved, kept⟩ := pass done a rest state split holds
      obtain ⟨last, run, final⟩ := ih (done ++ [a]) next (by simp [split]) kept
      exact ⟨last, Option.bind_eq_some_iff.mpr ⟨next, moved, run⟩, final⟩
  exact from_here list [] start rfl initially

theorem mem_of_pairwise {A : Type} {r : A → A → Prop} {done rest : List A} {a b : A}
    (sorted : (done ++ a :: rest).Pairwise r) (member : b ∈ done ++ a :: rest) (apart : b ≠ a)
    (below : ¬r a b) : b ∈ done := by
  rcases List.mem_append.mp member with before | after
  · exact before
  · rcases List.mem_cons.mp after with same | later
    · exact absurd same apart
    · have first := (List.pairwise_append.mp sorted).2.1
      exact absurd (List.rel_of_pairwise_cons first later) below

end SynergyLib.Loop
