import Mathlib.Logic.Relation
import Mathlib.Order.WellFounded
import Mathlib.Data.Fintype.Card
import Mathlib.Data.Finset.Card

/-!
# Cutting nodes together with everything below them

`r a b` reads "`b` hangs on `a`".  Cutting a set of nodes that is closed under `r`
leaves the other nodes with the descents they had, and the nodes below a node that
is not cut are those still below it plus nodes already cut.  A node is grounded when
no infinite descent starts from it; on a finite type the others have a cycle below.
-/

set_option autoImplicit false

namespace SynergyLib.Descent

open Relation

section Cutting
variable {V : Type} {r : V → V → Prop} {D : V → Prop}

def Closed (r : V → V → Prop) (D : V → Prop) : Prop := ∀ a b, r a b → D a → D b

/-- The edges between nodes that are not cut. -/
def cut (r : V → V → Prop) (D : V → Prop) : V → V → Prop := fun a b => r a b ∧ ¬D a ∧ ¬D b

variable {a b : V} {nodes : Finset V}

theorem below_of_cut (below : ReflTransGen (cut r D) a b) : ReflTransGen r a b :=
  ReflTransGen.mono (fun _ _ (step : cut r D _ _) => step.1) a b below

theorem cycle_of_cut (cycle : TransGen (cut r D) a a) : TransGen r a a :=
  TransGen.mono (fun _ _ (step : cut r D _ _) => step.1) a a cycle

theorem below_cut (closed : Closed r D) (below : ReflTransGen r a b) :
    D b ∨ ReflTransGen (cut r D) a b := by
  induction below with
  | refl => exact Or.inr .refl
  | @tail b c before step ih =>
    rcases ih with inside | kept
    · exact Or.inl (closed b c step inside)
    · by_cases last : D c
      · exact Or.inl last
      · by_cases previous : D b
        · exact Or.inl (closed b c step previous)
        · exact Or.inr (kept.tail ⟨step, previous, last⟩)

/-! ## Grounded nodes -/

def Grounded (r : V → V → Prop) (a : V) : Prop := Acc (fun below above => r above below) a

theorem Grounded.below (grounded : Grounded r a) (step : r a b) : Grounded r b :=
  grounded.inv step

theorem Grounded.cut (grounded : Grounded r a) : Grounded (Descent.cut r D) a :=
  Subrelation.accessible (fun step => step.1) grounded

theorem Grounded.of_cut (removed : ∀ a, D a → Grounded r a)
    (grounded : Grounded (Descent.cut r D) a) : Grounded r a := by
  induction grounded with
  | intro a _ ih =>
    by_cases inside : D a
    · exact removed a inside
    · refine .intro a fun b step => ?_
      by_cases next : D b
      · exact removed b next
      · exact ih b ⟨step, inside, next⟩

theorem Grounded.not_cycle (grounded : Grounded r a) : ¬TransGen r a a := by
  intro cycle
  have flipped : TransGen (fun below above => r above below) a a := transGen_swap.mp cycle
  have descent := grounded.transGen
  clear grounded cycle
  induction descent with
  | intro a _ ih => exact ih a flipped flipped

theorem Grounded.not_below_parent (grounded : Grounded r b) (step : r a b) :
    ¬ReflTransGen r b a := fun below =>
  grounded.not_cycle (TransGen.tail' below step)

theorem exists_cycle [Finite V] (infinite : ¬Grounded r a) : ∃ b, TransGen r b b := by
  by_contra acyclic
  push Not at acyclic
  have irreflexive : Std.Irrefl (TransGen fun below above => r above below) :=
    ⟨fun b cycle => acyclic b (transGen_swap.mp cycle)⟩
  have grounded := (Finite.wellFounded_of_trans_of_irrefl
    (TransGen fun below above => r above below)).apply a
  exact infinite (acc_transGen_iff.mp grounded)

/-! ## Counting the nodes below -/

open Classical in
noncomputable def countBelow (nodes : Finset V) (r : V → V → Prop) (a : V) : Nat :=
  (nodes.filter (ReflTransGen r a)).card

theorem countBelow_le : countBelow nodes r a ≤ nodes.card := by
  classical
  exact Finset.card_filter_le _ _

theorem countBelow_lt {fewer : Finset V} (member : a ∈ nodes) (subset : fewer ⊆ nodes)
    (step : r a b) (grounded : Grounded r b) :
    countBelow fewer (cut r D) b < countBelow nodes r a := by
  classical
  refine Finset.card_lt_card (Finset.ssubset_iff_of_subset ?_ |>.mpr ⟨a, ?_, ?_⟩)
  · intro c inside
    obtain ⟨present, below⟩ := Finset.mem_filter.mp inside
    exact Finset.mem_filter.mpr ⟨subset present, .head step (below_of_cut below)⟩
  · exact Finset.mem_filter.mpr ⟨member, .refl⟩
  · intro inside
    exact grounded.not_below_parent step (below_of_cut (Finset.mem_filter.mp inside).2)

end Cutting

end SynergyLib.Descent
