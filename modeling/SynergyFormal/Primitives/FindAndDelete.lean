import SynergyFormal.Primitives.SignatureHash

/-!
# FindAndDelete as a filter

A pattern that is one instruction can only stand where that instruction stands, so the loop
takes out whole instructions.
-/

set_option autoImplicit false

namespace SynergyData.FindAndDelete

open SynergyLib.Wire Script SignatureHash
open List hiding length lt_irrefl

/-- `GetOp` reads the script to its end; `ops` are the encodings of what it reads. -/
inductive Parses : CScript → List CScript → Prop where
  | nil : Parses [] []
  | cons {op pc : CScript} {ops : List CScript} {opcode : UInt8} {vch : Bytes}
      (read : getOp2 (op ++ pc) = some (opcode, vch, pc)) (later : Parses pc ops) :
      Parses (op ++ pc) (op :: ops)

/-! ## Instructions are read alike whatever follows -/

def Stable (op : CScript) : Prop := ∃ opcode vch, ∀ rest, getOp (op ++ rest) = some (opcode, vch, rest)

theorem pushSize_split {opcode : UInt8} {rest operand : CScript} {nSize : Nat}
    (sized : pushSize opcode rest = some (nSize, operand)) : ∃ size, rest = size ++ operand ∧
      ∀ other, pushSize opcode (size ++ other) = some (nSize, other) := by
  have field : ∀ width, ¬rest.length < width → ∀ other, ¬(rest.take width ++ other).length < width ∧
      (rest.take width ++ other).take width = rest.take width ∧
      (rest.take width ++ other).drop width = other := by
    intro width enough other
    have length : (rest.take width).length = width := by rw [length_take]; omega
    exact ⟨by rw [length_append]; omega, take_left' length, drop_left' length⟩
  unfold pushSize at sized ⊢
  split_ifs at sized ⊢ with direct one short two short short
  · exact ⟨[], by simp_all⟩
  all_goals
    obtain ⟨rfl, rfl⟩ := Prod.mk.inj (Option.some.inj sized)
    refine ⟨_, (take_append_drop _ rest).symm, fun other => ?_⟩
    obtain ⟨enough, front, back⟩ := field _ short other
    rw [if_neg enough, front, back]

theorem stable_of_getOp2 {op pc : CScript} {opcode : UInt8} {vch : Bytes}
    (fetched : getOp2 (op ++ pc) = some (opcode, vch, pc)) : Stable op := by
  refine ⟨opcode, vch, fun other => ?_⟩
  have read := getOp2_eq_some fetched
  cases op with
  | nil => exact absurd (getOp2_shorter fetched) (lt_irrefl _)
  | cons first rest =>
    simp only [cons_append, getOp] at read ⊢
    split_ifs at read ⊢
    · cases sized : pushSize first (rest ++ pc) with
      | none => simp [sized] at read
      | some pair =>
        obtain ⟨nSize, operand⟩ := pair
        obtain ⟨size, shape, alike⟩ := pushSize_split sized
        simp only [sized] at read
        split_ifs at read with short
        simp only [Option.some.injEq, Prod.mk.injEq] at read
        obtain ⟨rfl, rfl, left⟩ := read
        have whole : rest = size ++ operand.take nSize := by
          rw [← append_left_inj pc, shape, append_assoc, ← left, take_append_drop]
        have length : (operand.take nSize).length = nSize := by rw [length_take]; omega
        rw [whole, append_assoc, alike]
        simp [length]
    · simp only [Option.some.injEq, Prod.mk.injEq, append_left_eq_self] at read ⊢
      simp [read]

theorem Stable.rigid {op b pc : CScript} (stable : Stable op) (pattern : Stable b) :
    b <+: op ++ pc ↔ op = b := by
  constructor
  · rintro ⟨rest, same⟩
    obtain ⟨opcode, vch, reads⟩ := stable
    obtain ⟨opcode', vch', reads'⟩ := pattern
    have rests : rest = pc := by
      have equal := (reads' rest).symm.trans (same ▸ reads pc)
      simp only [Option.some.injEq, Prod.mk.injEq] at equal
      exact equal.2.2
    rw [rests, append_left_inj] at same
    exact same.symm
  · rintro rfl
    exact prefix_append ..

theorem Stable.next {op pc next : CScript} {opcode : UInt8} {vch : Bytes} (stable : Stable op)
    (read : getOp2 (op ++ pc) = some (opcode, vch, next)) : next = pc := by
  obtain ⟨_, _, reads⟩ := stable
  have equal := (getOp2_eq_some read).symm.trans (reads pc)
  simp only [Option.some.injEq, Prod.mk.injEq] at equal
  exact equal.2.2

/-! ## The loop -/

section Loop
variable {b : CScript} (pattern : Stable b)
include pattern

theorem deleteLoop_nil {fuel nFound : Nat} : deleteLoop b fuel [] nFound = ([], nFound) := by
  obtain ⟨opcode, vch, reads⟩ := pattern
  cases b with
  | nil => cases reads []
  | cons first rest => cases fuel <;> rfl

theorem deleteLoop_parsed {script : CScript} {ops : List CScript} (parsed : Parses script ops) :
    ∀ fuel nFound, script.length ≤ fuel → deleteLoop b fuel script nFound =
      ((ops.filter (· ≠ b)).flatten, nFound + ops.count b) := by
  induction parsed with
  | nil => exact fun fuel nFound _ => deleteLoop_nil pattern
  | @cons op pc ops opcode vch read later ih =>
    intro fuel nFound enough
    have stable := stable_of_getOp2 read
    have shorter := getOp2_shorter read
    obtain ⟨fuel, rfl⟩ : ∃ less, fuel = less + 1 := ⟨fuel - 1, by omega⟩
    rw [deleteLoop]
    by_cases same : op = b
    · rw [if_pos (List.isPrefixOf_iff_prefix.mpr ((stable.rigid pattern).mpr same)), ← same,
        drop_left, same, ih fuel _ (by omega)]
      simp [Nat.add_right_comm, Nat.add_assoc]
    · rw [if_neg (by rwa [List.isPrefixOf_iff_prefix, stable.rigid pattern]), read]
      simp [ih fuel nFound (by omega), same]

/-- Whether or not a call is refused, nothing is found among other instructions. -/
theorem deleteLoop_clean {ops : List CScript} : ∀ fuel nFound, (∀ op ∈ ops, Stable op ∧ op ≠ b) →
    deleteLoop b fuel ops.flatten nFound = (ops.flatten, nFound) := by
  induction ops with
  | nil => exact fun fuel nFound _ => deleteLoop_nil pattern
  | cons op ops ih =>
    intro fuel nFound others
    obtain ⟨stable, different⟩ := others op mem_cons_self
    cases fuel with
    | zero => rfl
    | succ fuel =>
      rw [flatten_cons, deleteLoop,
        if_neg (by rwa [List.isPrefixOf_iff_prefix, stable.rigid pattern])]
      cases read : getOp2 (op ++ ops.flatten) with
      | none => rfl
      | some triple =>
        obtain ⟨opcode, vch, next⟩ := triple
        obtain rfl := stable.next read
        simp [ih fuel nFound fun other member => others other (mem_cons_of_mem _ member)]

end Loop

theorem Parses.stable {script : CScript} {ops : List CScript} (parsed : Parses script ops) :
    ∀ op ∈ ops, Stable op := by
  induction parsed with
  | nil => simp
  | cons read later ih =>
    exact forall_mem_cons.mpr ⟨stable_of_getOp2 read, ih⟩

theorem findAndDelete_filters (script b : CScript) (ops : List CScript) (opcode : UInt8)
    (vch : Bytes) (parsed : Parses script ops) (single : getOp2 b = some (opcode, vch, [])) :
    findAndDeleteCount script b = ((ops.filter (· ≠ b)).flatten, ops.count b) ∧
      findAndDeleteCount (findAndDeleteCount script b).1 b = ((findAndDeleteCount script b).1, 0) := by
  have pattern : Stable b := @stable_of_getOp2 b [] opcode vch (by simpa using single)
  have nonempty : b ≠ [] := by
    rintro rfl
    cases single
  have first : findAndDeleteCount script b = ((ops.filter (· ≠ b)).flatten, ops.count b) := by
    rw [findAndDeleteCount, if_neg nonempty, deleteLoop_parsed pattern parsed _ _ le_rfl,
      Nat.zero_add]
  refine ⟨first, ?_⟩
  rw [first, findAndDeleteCount, if_neg nonempty]
  refine deleteLoop_clean pattern _ _ fun op member => ?_
  obtain ⟨listed, different⟩ := mem_filter.mp member
  exact ⟨parsed.stable op listed, by simpa using different⟩

/-- Of three pushes and an opcode, the two pushes of 7 go. -/
theorem findAndDelete_filters_pushes :
    findAndDeleteCount [1, 7, 0xac, 2, 1, 7, 1, 7] [1, 7] = ([0xac, 2, 1, 7], 2) := by
  have parsed : Parses [1, 7, 0xac, 2, 1, 7, 1, 7] [[1, 7], [0xac], [2, 1, 7], [1, 7]] :=
    @Parses.cons [1, 7] _ _ _ _ rfl (@Parses.cons [0xac] _ _ _ _ rfl
      (@Parses.cons [2, 1, 7] _ _ _ _ rfl (@Parses.cons [1, 7] _ _ _ _ rfl .nil)))
  exact (findAndDelete_filters _ [1, 7] _ 1 [7] parsed rfl).1

end SynergyData.FindAndDelete
