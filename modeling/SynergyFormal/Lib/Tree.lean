import Mathlib.Data.Nat.Basic
import Mathlib.Logic.Function.Basic
import Mathlib.Tactic.Tauto

/-!
# Branches of a tree with parent links

A node of a growing tree is identified with the branch that leads to it from the
root, so that two nodes are the same exactly when their whole histories are.

`findFork` is the usual two-pointer search for the place where two branches part, and
`above` the part of a branch after a node.  `links` is the table of forward links along
one branch, and `walk` follows such a table.
-/

set_option autoImplicit false

namespace SynergyLib.Tree

open Function

inductive Branch (A : Type) where
  | root (value : A)
  | grow (parent : Branch A) (value : A)
  deriving DecidableEq

section Access
variable {A : Type}

def value : Branch A → A
  | .root a => a
  | .grow _ a => a

def parent : Branch A → Option (Branch A)
  | .root _ => none
  | .grow p _ => some p

def depth : Branch A → Nat
  | .root _ => 0
  | .grow p _ => depth p + 1

def rootOf : Branch A → Branch A
  | .root a => .root a
  | .grow p _ => rootOf p

/-- The nodes on the way to a node, from the root, the node included. -/
def path : Branch A → List (Branch A)
  | .root a => [.root a]
  | .grow p a => path p ++ [.grow p a]

variable {a : A} {p b c : Branch A}

@[simp] theorem value_root : value (.root a) = a := rfl
@[simp] theorem value_grow : value (.grow p a) = a := rfl
@[simp] theorem parent_root : parent (.root a : Branch A) = none := rfl
@[simp] theorem parent_grow : parent (.grow p a) = some p := rfl
@[simp] theorem depth_root : depth (.root a : Branch A) = 0 := rfl
@[simp] theorem depth_grow : depth (.grow p a) = depth p + 1 := rfl

theorem self_mem_path (b : Branch A) : b ∈ path b := by cases b <;> simp [path]

variable {a x fork : Branch A} {v : A} {height : Nat}

theorem mem_path_grow : a ∈ path (.grow p v) ↔ a ∈ path p ∨ a = .grow p v := by
  simp [path]

theorem path_induction {motive : (b : Branch A) → fork ∈ path b → Prop}
    (base : motive fork (self_mem_path fork))
    (step : ∀ p v (below : fork ∈ path p), motive p below →
      motive (.grow p v) (mem_path_grow.mpr (Or.inl below)))
    (b : Branch A) (member : fork ∈ path b) : motive b member := by
  induction b with
  | root v =>
    have same : fork = .root v := by simpa [path] using member
    subst same
    exact base
  | grow p v ih =>
    rcases mem_path_grow.mp member with below | same
    · exact step p v below (ih below)
    · subst same
      exact base

theorem path_trans (first : a ∈ path b) (second : b ∈ path c) : a ∈ path c := by
  induction c, second using path_induction with
  | base => exact first
  | step p v below ih => exact mem_path_grow.mpr (Or.inl ih)

theorem depth_le_of_mem_path (member : a ∈ path b) : depth a ≤ depth b := by
  induction b, member using path_induction with
  | base => exact le_refl _
  | step p v below ih => exact Nat.le_succ_of_le ih

theorem grow_not_mem_path (p : Branch A) (v : A) : Branch.grow p v ∉ path p := fun member =>
  absurd (depth_le_of_mem_path member) (by simp)

theorem eq_of_mem_path (member : a ∈ path b) (deep : depth b ≤ depth a) : a = b := by
  cases b with
  | root v => simpa [path] using member
  | grow p v =>
    rcases mem_path_grow.mp member with below | same
    · have shallow := depth_le_of_mem_path below
      rw [depth_grow] at deep
      omega
    · exact same

theorem eq_of_mem_path_depth (first : a ∈ path c) (second : b ∈ path c)
    (same : depth a = depth b) : a = b := by
  induction c with
  | root v =>
    have left : a = .root v := by simpa [path] using first
    have right : b = .root v := by simpa [path] using second
    rw [left, right]
  | grow p v ih =>
    rcases mem_path_grow.mp first with below | rfl <;>
      rcases mem_path_grow.mp second with under | rfl
    · exact ih below under
    · have shallow := depth_le_of_mem_path below
      rw [depth_grow] at same
      omega
    · have shallow := depth_le_of_mem_path under
      rw [depth_grow] at same
      omega
    · rfl

theorem nodup_path : (path b).Nodup := by
  induction b with
  | root v => exact List.pairwise_singleton _ _
  | grow p v ih =>
    refine List.nodup_append.mpr ⟨ih, List.pairwise_singleton _ _, ?_⟩
    rintro a inside b last rfl
    obtain rfl := List.mem_singleton.mp last
    exact grow_not_mem_path p v inside

theorem length_path : (path b).length = depth b + 1 := by
  induction b with
  | root v => rfl
  | grow p v ih => simp [path, ih]

theorem rootOf_mem_path : rootOf b ∈ path b := by
  induction b with
  | root v => exact self_mem_path _
  | grow p v ih => exact mem_path_grow.mpr (Or.inl ih)

theorem path_rootOf : path (rootOf b) = [rootOf b] := by
  induction b with
  | root v => rfl
  | grow p v ih => exact ih

/-- The ancestor of a branch at a height, or the branch itself if it is not higher. -/
def liftTo (height : Nat) : Branch A → Branch A
  | .root a => .root a
  | .grow p a => if height < depth p + 1 then liftTo height p else .grow p a

theorem liftTo_mem_path (height : Nat) (b : Branch A) : liftTo height b ∈ path b := by
  induction b with
  | root v => simp [liftTo, path]
  | grow p v ih =>
    unfold liftTo
    split_ifs
    · exact mem_path_grow.mpr (Or.inl ih)
    · exact self_mem_path _

theorem rootOf_of_mem_path (member : a ∈ path b) : rootOf a = rootOf b := by
  induction b, member using path_induction with
  | base => rfl
  | step p v below ih => exact ih

theorem liftTo_zero : liftTo 0 b = rootOf b := by
  induction b with
  | root v => rfl
  | grow p v ih => simp [liftTo, rootOf, ih]

theorem depth_liftTo_le : depth (liftTo height b) ≤ height := by
  induction b with
  | root v => exact Nat.zero_le _
  | grow p v ih =>
    unfold liftTo
    split_ifs with high
    · exact ih
    · rw [depth_grow]
      omega

theorem depth_liftTo (low : height ≤ depth b) : depth (liftTo height b) = height := by
  induction b with
  | root v => exact (Nat.le_zero.mp low).symm
  | grow p v ih =>
    unfold liftTo
    split_ifs with high
    · exact ih (by omega)
    · rw [depth_grow] at low ⊢
      omega

theorem mem_path_liftTo (member : x ∈ path b) (low : depth x ≤ height) :
    x ∈ path (liftTo height b) := by
  induction b with
  | root v => exact member
  | grow p v ih =>
    unfold liftTo
    split_ifs with high
    · rcases mem_path_grow.mp member with below | rfl
      · exact ih below
      · rw [depth_grow] at low
        omega
    · exact member

theorem liftTo_depth (member : a ∈ path b) : liftTo (depth a) b = a :=
  (eq_of_mem_path (mem_path_liftTo member (le_refl _)) depth_liftTo_le).symm

theorem path_total (first : a ∈ path c) (second : b ∈ path c) (low : depth a ≤ depth b) :
    a ∈ path b := by
  have lifted := mem_path_liftTo first low
  rwa [liftTo_depth second] at lifted

end Access

/-! ## Forks -/

section Forks
variable {A : Type} [DecidableEq A]

/-- Both pointers go down in turn until they meet; a pointer that would leave the tree
ends the search. -/
def findFork : Branch A → Branch A → Option (Branch A)
  | .root a, longer => if .root a = liftTo 0 longer then some (.root a) else none
  | .grow p a, longer =>
    if .grow p a = liftTo (depth p + 1) longer then some (.grow p a)
    else findFork p (liftTo (depth p + 1) longer)

/-- The part of a branch after `fork`, newest first. -/
def above (fork : Branch A) : Branch A → List (Branch A)
  | .root a => if .root a = fork then [] else [.root a]
  | .grow p a => if .grow p a = fork then [] else .grow p a :: above fork p

variable {a x b fork : Branch A} {v : A}

theorem findFork_mem : ∀ b fork : Branch A, findFork a b = some fork →
    fork ∈ path a ∧ fork ∈ path b := by
  induction a with
  | root v =>
    intro b fork found
    unfold findFork at found
    split_ifs at found with meets
    have same : fork = .root v := by simpa using found.symm
    exact ⟨by simp [same, path], by rw [same, meets]; exact liftTo_mem_path 0 b⟩
  | grow p v ih =>
    intro b fork found
    unfold findFork at found
    split_ifs at found with meets
    · have same : fork = .grow p v := by simpa using found.symm
      exact ⟨same ▸ self_mem_path _, by rw [same, meets]; exact liftTo_mem_path _ b⟩
    · obtain ⟨first, second⟩ := ih _ fork found
      exact ⟨mem_path_grow.mpr (Or.inl first), path_trans second (liftTo_mem_path _ b)⟩

theorem findFork_above : ∀ b fork : Branch A,
    findFork a b = some fork → x ∈ path a → x ∈ path b → x ∈ path fork := by
  induction a with
  | root v =>
    intro b fork found first _
    unfold findFork at found
    split_ifs at found
    have same : fork = .root v := by simpa using found.symm
    rw [same]
    exact first
  | grow p v ih =>
    intro b fork found first second
    unfold findFork at found
    split_ifs at found with meets
    · have same : fork = .grow p v := by simpa using found.symm
      rw [same]
      exact first
    · rcases mem_path_grow.mp first with below | rfl
      · exact ih _ fork found below
          (mem_path_liftTo second (Nat.le_succ_of_le (depth_le_of_mem_path below)))
      · exact absurd (liftTo_depth second).symm meets

theorem findFork_child : findFork a (.grow a v) = some a := by
  cases a with
  | root b => simp [findFork, liftTo]
  | grow p b => simp [findFork, liftTo, depth]

theorem findFork_isSome : ∀ b : Branch A, rootOf a = rootOf b →
    ∃ fork, findFork a b = some fork := by
  induction a with
  | root v =>
    intro b sameRoot
    exact ⟨.root v, by rw [findFork, liftTo_zero, if_pos]; exact sameRoot⟩
  | grow p v ih =>
    intro b sameRoot
    unfold findFork
    split_ifs with meets
    · exact ⟨_, rfl⟩
    · exact ih _ (sameRoot.trans (rootOf_of_mem_path (liftTo_mem_path _ b)).symm)

theorem above_self : above b b = [] := by cases b <;> simp [above]

theorem above_grow {p : Branch A} (member : fork ∈ path p) :
    above fork (.grow p v) = .grow p v :: above fork p := by
  rw [above, if_neg]
  rintro rfl
  exact grow_not_mem_path p v member

theorem above_reverse_cons (member : fork ∈ path b) : fork = b ∨ ∃ v, Branch.grow fork v ∈ path b ∧
      (above fork b).reverse = .grow fork v :: (above (.grow fork v) b).reverse := by
  induction b, member using path_induction with
  | base => exact Or.inl rfl
  | step p v below ih =>
    right
    rcases ih with rfl | ⟨w, inside, split⟩
    · exact ⟨v, self_mem_path _, by simp [above_grow below, above_self]⟩
    · refine ⟨w, mem_path_grow.mpr (Or.inl inside), ?_⟩
      rw [above_grow below, above_grow inside, List.reverse_cons, split, List.reverse_cons,
        List.cons_append]

theorem path_above (member : fork ∈ path b) : path b = path fork ++ (above fork b).reverse := by
  induction b, member using path_induction with
  | base => simp [above_self]
  | step p v below ih => rw [path, ih, above_grow below, List.reverse_cons, List.append_assoc]

theorem mem_path_iff (member : fork ∈ path b) : x ∈ path b ↔ x ∈ path fork ∨ x ∈ above fork b := by
  induction b, member using path_induction with
  | base => simp [above_self]
  | step p v below ih =>
    rw [mem_path_grow, ih, above_grow below, List.mem_cons]
    tauto

theorem not_mem_above (below : x ∈ path fork) (member : fork ∈ path b) : x ∉ above fork b := by
  induction b, member using path_induction with
  | base => simp [above_self]
  | step p v under ih =>
    rw [above_grow under, List.mem_cons, not_or]
    refine ⟨?_, ih⟩
    rintro rfl
    exact grow_not_mem_path p v (path_trans below under)

end Forks

/-! ## Forward links -/

section Links
variable {A : Type} {b fork c tip : Branch A} {next : Branch A → Option (Branch A)}

/-- Follow a table of links for at most `fuel` steps. -/
def walk (next : Branch A → Option (Branch A)) : Nat → Branch A → List (Branch A)
  | 0, b => [b]
  | fuel + 1, b =>
    match next b with
    | none => [b]
    | some c => b :: walk next fuel c

theorem walk_eq_cons {fuel : Nat} : walk next fuel b = b :: (walk next fuel b).tail := by
  cases fuel with
  | zero => rfl
  | succ fuel => rw [walk]; split <;> rfl

/-- Every link leads one step up a branch. -/
def Along (next : Branch A → Option (Branch A)) (tip : Branch A) : Prop :=
  ∀ b c, next b = some c → c ∈ path tip ∧ parent c = some b

theorem Along.mono {higher : Branch A} (along : Along next tip) (onward : tip ∈ path higher) :
    Along next higher :=
  fun b c linked => ⟨path_trans (along b c linked).1 onward, (along b c linked).2⟩

theorem Along.source (along : Along next tip) (linked : next b = some c) : b ∈ path tip := by
  obtain ⟨inside, up⟩ := along b c linked
  cases c with
  | root v => cases up
  | grow p v =>
    cases up
    exact path_trans (mem_path_grow.mpr (Or.inl (self_mem_path _))) inside

variable [DecidableEq A]

/-- The table of forward links along one branch. -/
def links : Branch A → Branch A → Option (Branch A)
  | .root _ => fun _ => none
  | .grow p a => Function.update (links p) p (some (.grow p a))

/-- Set the link from the parent of a node, if there is one. -/
def setLink (next : Branch A → Option (Branch A)) (b : Branch A) (target : Option (Branch A)) :
    Branch A → Option (Branch A) :=
  match parent b with
  | none => next
  | some p => Function.update next p target

def unlink (next : Branch A → Option (Branch A)) (nodes : List (Branch A)) :
    Branch A → Option (Branch A) :=
  nodes.foldl (fun next b => setLink next b none) next

def relink (next : Branch A → Option (Branch A)) (nodes : List (Branch A)) :
    Branch A → Option (Branch A) :=
  nodes.foldl (fun next b => setLink next b (some b)) next

theorem links_eq_none : ∀ x : Branch A, depth b ≤ depth x → links b x = none := by
  induction b with
  | root v => intro x _; rfl
  | grow p v ih =>
    intro x deep
    rw [depth_grow] at deep
    have different : x ≠ p := by rintro rfl; omega
    rw [links, update_of_ne different]
    exact ih x (by omega)

theorem links_outside {x : Branch A} (outside : x ∉ path b) : links b x = none := by
  induction b with
  | root v => rfl
  | grow p v ih =>
    rw [mem_path_grow, not_or] at outside
    have different : x ≠ p := by
      rintro rfl
      exact outside.1 (self_mem_path x)
    rw [links, update_of_ne different]
    exact ih outside.1

theorem links_update_none {p : Branch A} {v : A} : update (links (.grow p v)) p none = links p := by
  rw [links, update_idem, ← links_eq_none p (le_refl _), update_eq_self]

theorem unlink_above (member : fork ∈ path b) : unlink (links b) (above fork b) = links fork := by
  induction b, member using path_induction with
  | base => rw [above_self]; rfl
  | step p v below ih =>
    rw [above_grow below, unlink, List.foldl_cons, setLink, parent_grow]
    dsimp only
    rw [links_update_none]
    exact ih

theorem relink_above (member : fork ∈ path b) :
    relink (links fork) (above fork b).reverse = links b := by
  induction b, member using path_induction with
  | base => rw [above_self]; rfl
  | step p v below ih =>
    rw [relink] at ih
    rw [above_grow below, relink, List.reverse_cons, List.foldl_append, ih]
    rfl

theorem links_inside (member : b ∈ path c) :
    b = c ∨ ∃ v, links c b = some (.grow b v) ∧ Branch.grow b v ∈ path c := by
  induction c, member using path_induction with
  | base => exact Or.inl rfl
  | step p v below ih =>
    right
    rcases ih with rfl | ⟨w, linked, inside⟩
    · exact ⟨v, by simp [links], self_mem_path _⟩
    · have different : b ≠ p := by
        rintro rfl
        exact grow_not_mem_path b w inside
      exact ⟨w, by rw [links, update_of_ne different, linked], mem_path_grow.mpr (Or.inl inside)⟩

theorem walk_links {fuel : Nat} (enough : depth c ≤ fuel) :
    walk (links c) fuel (rootOf c) = path c := by
  have rest : ∀ (fuel : Nat) (b : Branch A), b ∈ path c → depth c ≤ fuel + depth b →
      path b ++ (walk (links c) fuel b).tail = path c := by
    intro fuel
    induction fuel with
    | zero =>
      intro b member enough
      have same : b = c := eq_of_mem_path member (by omega)
      simp [walk, same]
    | succ fuel ih =>
      intro b member enough
      rcases links_inside member with rfl | ⟨v, linked, inside⟩
      · simp [walk, links_eq_none b (le_refl _)]
      · have onward := ih _ inside (by rw [depth_grow]; omega)
        rw [walk, linked, List.tail_cons, walk_eq_cons]
        simpa [path] using onward
  have whole := rest fuel (rootOf c) rootOf_mem_path (by omega)
  rw [path_rootOf] at whole
  rw [walk_eq_cons]
  exact whole

theorem Along.setLink (along : Along next tip) (inside : c ∈ path tip) :
    Along (setLink next c (some c)) tip := by
  intro b d linked
  cases c with
  | root v => exact along b d linked
  | grow p v =>
    by_cases same : b = p
    · subst same
      have target : some (Branch.grow b v) = some d := by simpa [Tree.setLink] using linked
      rw [← Option.some.inj target]
      exact ⟨inside, rfl⟩
    · simp only [Tree.setLink, parent_grow, update_of_ne same] at linked
      exact along b d linked

theorem Along.relink (nodes : List (Branch A)) :
    ∀ {next : Branch A → Option (Branch A)}, Along next tip → (∀ c ∈ nodes, c ∈ path tip) →
      Along (relink next nodes) tip := by
  induction nodes with
  | nil => intro next along _; exact along
  | cons c nodes ih =>
    intro next along inside
    exact ih (along.setLink (inside c List.mem_cons_self))
      fun d member => inside d (List.mem_cons_of_mem _ member)

theorem setLink_none {a : Branch A} (along : Along next tip)
    (linked : setLink next a none b = some c) : next b = some c ∧ c ≠ a := by
  cases a with
  | root v =>
    refine ⟨linked, ?_⟩
    rintro rfl
    cases (along b _ linked).2
  | grow p v =>
    by_cases same : b = p
    · subst same
      simp [setLink] at linked
    · simp only [setLink, parent_grow, update_of_ne same] at linked
      refine ⟨linked, ?_⟩
      rintro rfl
      exact same (Option.some.inj (along b _ linked).2).symm

theorem unlink_eq_some {nodes : List (Branch A)} :
    ∀ {next : Branch A → Option (Branch A)}, Along next tip → unlink next nodes b = some c →
      next b = some c ∧ c ∉ nodes := by
  induction nodes with
  | nil => intro next _ linked; exact ⟨linked, by simp⟩
  | cons a nodes ih =>
    intro next along linked
    have fewer : Along (setLink next a none) tip := fun d e other =>
      along d e (setLink_none along other).1
    obtain ⟨still, outside⟩ := ih fewer linked
    obtain ⟨before, different⟩ := setLink_none along still
    exact ⟨before, by simp [different, outside]⟩

theorem Along.switch {old new : Branch A} (along : Along next old) (fromOld : fork ∈ path old)
    (toNew : fork ∈ path new) :
    Along (Tree.relink (unlink next (above fork old)) (above fork new).reverse) new := by
  refine Along.relink _ (Along.mono ?_ toNew) ?_
  · intro b c linked
    obtain ⟨before, kept⟩ := unlink_eq_some along linked
    obtain ⟨inside, up⟩ := along b c before
    exact ⟨((mem_path_iff fromOld).mp inside).resolve_right kept, up⟩
  · intro c member
    exact (mem_path_iff toNew).mpr (Or.inr (List.mem_reverse.mp member))

/-- Follow a table of links to the first later node that satisfies `good`.  The result is
`none` when the fuel is gone first, and `some none` when the links end first. -/
def seek (good : Branch A → Bool) (next : Branch A → Option (Branch A)) :
    Nat → Branch A → Option (Option (Branch A))
  | 0, _ => none
  | fuel + 1, b =>
    match next b with
    | none => some none
    | some c => if good c then some (some c) else seek good next fuel c

theorem seek_links {good : Branch A → Bool} : ∀ (fuel : Nat) (b : Branch A),
    b ∈ path c → depth c < fuel + depth b →
      seek good (links c) fuel b = some ((above b c).reverse.find? good) := by
  intro fuel
  induction fuel with
  | zero =>
    intro b member enough
    have deep := depth_le_of_mem_path member
    omega
  | succ fuel ih =>
    intro b member enough
    rcases links_inside member with rfl | ⟨v, linked, inside⟩
    · simp [seek, links_eq_none b (le_refl _), above_self]
    · rcases above_reverse_cons member with rfl | ⟨w, other, split⟩
      · exact absurd inside (grow_not_mem_path b v)
      · have same : Branch.grow b v = .grow b w :=
          eq_of_mem_path_depth inside other (by simp)
        rw [← same] at split
        have onward := ih _ inside (by rw [depth_grow]; omega)
        rw [seek, linked, split, List.find?_cons]
        cases found : good (.grow b v) with
        | true => simp [found]
        | false => simpa [found] using onward

end Links

end SynergyLib.Tree
