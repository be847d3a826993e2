import Mathlib.Data.List.AList
import Mathlib.Data.List.Sort

/-!
# An index of items by the keys they mention

A map of items by id and, beside it, a map from each key to the ordered set of the ids
whose item mentions the key.  The second map is kept by three operations: `enter` puts
an id under a key, `leave` takes it out and drops the key when its set becomes empty, and
`touch` reads a key through an operator that creates a missing entry.

`Lists` says that the sets are the right ones and `Hollow` names the keys with an empty
set.  Every operation has one rule for the sets and one for the hollow keys, so the two
can be followed separately.
-/

set_option autoImplicit false

namespace SynergyLib.InverseIndex

variable {Id Item Key : Type} [DecidableEq Key]

/-- The set under a key; a missing key reads as the empty set. -/
def subscript (index : AList (fun _ : Key => List Id)) (key : Key) : List Id :=
  (index.lookup key).getD []

def touch (index : AList (fun _ : Key => List Id)) (key : Key) : AList (fun _ : Key => List Id) :=
  if (index.lookup key).isSome then index else index.insert key []

def insertSet [DecidableEq Id] (before : Id → Id → Prop) [DecidableRel before] (id : Id)
    (ids : List Id) : List Id :=
  if id ∈ ids then ids else ids.orderedInsert before id

def enter [DecidableEq Id] (before : Id → Id → Prop) [DecidableRel before] (id : Id)
    (index : AList (fun _ : Key => List Id)) (key : Key) : AList (fun _ : Key => List Id) :=
  index.insert key (insertSet before id (subscript index key))

def leave [DecidableEq Id] (id : Id) (index : AList (fun _ : Key => List Id)) (key : Key) :
    AList (fun _ : Key => List Id) :=
  if (subscript index key).filter (· ≠ id) = [] then index.erase key
  else index.insert key ((subscript index key).filter (· ≠ id))

def Hollow (index : AList (fun _ : Key => List Id)) (key : Key) : Prop :=
  index.lookup key = some []

/-- The ids under a key are those of the items that mention it. -/
def Lists [DecidableEq Id] (mentions : Item → List Key) (items : AList (fun _ : Id => Item))
    (index : AList (fun _ : Key => List Id)) : Prop :=
  ∀ key id, id ∈ subscript index key ↔ ∃ item, items.lookup id = some item ∧ key ∈ mentions item

/-! ## One operation -/

section Key
variable (index : AList (fun _ : Key => List Id)) (key other : Key)
include index key other

theorem subscript_insert {ids : List Id} :
    subscript (index.insert key ids) other = if other = key then ids else subscript index other := by
  by_cases same : other = key
  · subst same
    simp [subscript]
  · simp [subscript, AList.lookup_insert_ne same, same]

theorem subscript_erase :
    subscript (index.erase key) other = if other = key then [] else subscript index other := by
  by_cases same : other = key
  · subst same
    simp [subscript]
  · simp [subscript, AList.lookup_erase_ne same, same]

theorem subscript_touch : subscript (touch index key) other = subscript index other := by
  unfold touch
  split
  · rfl
  · rename_i absent
    rw [subscript_insert]
    split
    · rename_i same
      have missing : index.lookup key = none := by simpa using absent
      rw [same, subscript, missing]
      rfl
    · rfl

theorem lookup_touch_eq_none :
    (touch index key).lookup other = none ↔ index.lookup other = none ∧ other ≠ key := by
  unfold touch
  split
  · rename_i present
    refine ⟨fun missing => ⟨missing, fun same => ?_⟩, And.left⟩
    rw [same] at missing
    rw [missing] at present
    cases present
  · by_cases same : other = key
    · subst same
      simp
    · simp [AList.lookup_insert_ne same, same]

theorem hollow_touch : Hollow (touch index key) other ↔
      Hollow index other ∨ (other = key ∧ index.lookup key = none) := by
  unfold touch
  split
  · rename_i present
    refine ⟨Or.inl, fun hollow => hollow.resolve_right fun missing => ?_⟩
    rw [missing.2] at present
    cases present
  · rename_i absent
    have missing : index.lookup key = none := by simpa using absent
    by_cases same : other = key
    · subst same
      simp [Hollow, missing]
    · simp [Hollow, AList.lookup_insert_ne same, same]

end Key

variable [DecidableEq Id]

variable {before : Id → Id → Prop} {id x : Id} {key other : Key} {keys : List Key}

theorem mem_insertSet [DecidableRel before] {ids : List Id} :
    x ∈ insertSet before id ids ↔ x = id ∨ x ∈ ids := by
  unfold insertSet
  split
  · rename_i member
    exact ⟨Or.inr, fun cases => cases.elim (fun same => same ▸ member) fun other => other⟩
  · exact List.mem_orderedInsert before

variable {index : AList (fun _ : Key => List Id)}

theorem mem_subscript_enter [DecidableRel before] :
    x ∈ subscript (enter before id index key) other ↔
      x ∈ subscript index other ∨ (other = key ∧ x = id) := by
  rw [enter, subscript_insert]
  split
  · rename_i same
    rw [mem_insertSet, same]
    simp [or_comm]
  · rename_i different
    simp [different]

theorem hollow_enter [DecidableRel before] :
    Hollow (enter before id index key) other ↔ Hollow index other ∧ other ≠ key := by
  by_cases same : other = key
  · subst same
    have member : id ∈ insertSet before id (subscript index other) := mem_insertSet.mpr (Or.inl rfl)
    simp [Hollow, enter, List.ne_nil_of_mem member]
  · simp [Hollow, enter, AList.lookup_insert_ne same, same]

theorem mem_subscript_leave : x ∈ subscript (leave id index key) other ↔
      x ∈ subscript index other ∧ ¬ (other = key ∧ x = id) := by
  unfold leave
  by_cases same : other = key
  · subst same
    split
    · rename_i empty
      have none : x ∉ (subscript index other).filter (· ≠ id) := by rw [empty]; exact List.not_mem_nil
      rw [subscript_erase, if_pos rfl]
      simpa using none
    · rw [subscript_insert, if_pos rfl]
      simp
  · split
    · rw [subscript_erase, if_neg same]
      simp [same]
    · rw [subscript_insert, if_neg same]
      simp [same]

theorem hollow_leave : Hollow (leave id index key) other ↔ Hollow index other ∧ other ≠ key := by
  unfold leave
  by_cases same : other = key
  · subst same
    split
    · simp [Hollow]
    · rename_i filled
      simpa [Hollow] using filled
  · split
    · simp [Hollow, AList.lookup_erase_ne same, same]
    · simp [Hollow, AList.lookup_insert_ne same, same]

/-! ## All keys of an item -/

theorem mem_subscript_enterAll [DecidableRel before] :
    x ∈ subscript (keys.foldl (enter before id) index) other ↔
      x ∈ subscript index other ∨ (other ∈ keys ∧ x = id) := by
  induction keys generalizing index with
  | nil => simp
  | cons key keys ih =>
    rw [List.foldl_cons, ih, mem_subscript_enter, List.mem_cons]
    tauto

theorem mem_subscript_leaveAll : x ∈ subscript (keys.foldl (leave id) index) other ↔
      x ∈ subscript index other ∧ ¬ (other ∈ keys ∧ x = id) := by
  induction keys generalizing index with
  | nil => simp
  | cons key keys ih =>
    rw [List.foldl_cons, ih, mem_subscript_leave, List.mem_cons]
    tauto

omit [DecidableEq Id] in
/-- A key that `op` is called with is not empty afterwards. -/
theorem hollow_foldl {op : AList (fun _ : Key => List Id) → Key → AList fun _ : Key => List Id}
    (step : ∀ index key, Hollow (op index key) other ↔ Hollow index other ∧ other ≠ key) :
    Hollow (keys.foldl op index) other ↔ Hollow index other ∧ other ∉ keys := by
  induction keys generalizing index with
  | nil => simp
  | cons key keys ih =>
    rw [List.foldl_cons, ih, step, List.mem_cons]
    tauto

/-! ## Items -/

section Items
variable {mentions : Item → List Key} {items : AList (fun _ : Id => Item)}

section Lists
variable (lists : Lists mentions items index)
include lists

variable {item : Item}

theorem Lists.insert (before : Id → Id → Prop) [DecidableRel before]
    (absent : items.lookup id = none) (item : Item) :
    Lists mentions (items.insert id item) ((mentions item).foldl (enter before id) index) := by
  intro key x
  rw [mem_subscript_enterAll, lists key x]
  by_cases same : x = id
  · subst same
    simp [absent]
  · simp [AList.lookup_insert_ne same, same]

theorem Lists.erase (present : items.lookup id = some item) :
    Lists mentions (items.erase id) ((mentions item).foldl (leave id) index) := by
  intro key x
  rw [mem_subscript_leaveAll, lists key x]
  by_cases same : x = id
  · subst same
    simp [present]
  · simp [AList.lookup_erase_ne same, same]

theorem Lists.not_hollow (present : items.lookup id = some item) (mentioned : key ∈ mentions item) :
    ¬ Hollow index key := by
  intro hollow
  have member : id ∈ subscript index key := (lists key id).mpr ⟨item, present, mentioned⟩
  rw [subscript, hollow] at member
  cases member

theorem Lists.lookup_eq_none (filled : ¬ Hollow index key) :
    index.lookup key = none ↔ ∀ id item, items.lookup id = some item → key ∉ mentions item := by
  constructor
  · intro missing id item present mentioned
    have member : id ∈ subscript index key := (lists key id).mpr ⟨item, present, mentioned⟩
    rw [subscript, missing] at member
    cases member
  · intro unmentioned
    cases found : index.lookup key with
    | none => rfl
    | some ids =>
      cases ids with
      | nil => exact absurd found filled
      | cons id ids =>
        have member : id ∈ subscript index key := by simp [subscript, found]
        obtain ⟨item, present, mentioned⟩ := (lists key id).mp member
        exact absurd mentioned (unmentioned id item present)

end Lists

end Items

end SynergyLib.InverseIndex
