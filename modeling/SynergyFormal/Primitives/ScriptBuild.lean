import SynergyFormal.Primitives.Interpreter

/-!
# Scripts built item by item

`operator<<` appends opcodes, integers and byte strings; `GetOp` takes them off again, unless the
bytes left wrap in the comparison of `GetOp2`.
-/

set_option autoImplicit false

namespace SynergyData.ScriptBuild

open SynergyLib.Wire Script Interpreter
open List hiding append append_eq below foldl_append not_le not_lt range

/-! ## Reading -/

/-- What repeated calls return until the first that fails, and where they stop. -/
def readOps : Nat → CScript → List (UInt8 × Bytes) × CScript
  | 0, pc => ([], pc)
  | fuel + 1, pc =>
    match getOp2 pc with
    | none => ([], pc)
    | some (opcode, vch, pc) =>
      let later := readOps fuel pc
      ((opcode, vch) :: later.1, later.2)

/-! ## Building -/

inductive Item where
  | opcode (op : UInt8)
  | number (n : Int)
  | bytes (b : Bytes)

/-- The overloads of `operator<<`. -/
def append (script : CScript) : Item → CScript
  | .opcode op => script ++ [op]
  | .number n => script ++ pushInt64 n
  | .bytes b => script ++ pushVector b

def build (items : List Item) : CScript := items.foldl append []

/-- Opcodes that are no pushes, integers of 64 bits and strings whose size fits the field. -/
def Item.Allowed : Item → Prop
  | .opcode op => opPushData4 < op
  | .number n => -2 ^ 63 ≤ n ∧ n < 2 ^ 63
  | .bytes b => b.length < 2 ^ 32

def IsSmall (n : Int) : Prop := n = -1 ∨ (1 ≤ n ∧ n ≤ 16)

instance (n : Int) : Decidable (IsSmall n) := inferInstanceAs (Decidable (_ ∨ _))

/-- What a call returns for an item: the opcode, or a push of the string or the number. -/
def Yields : Item → UInt8 × Bytes → Prop
  | .opcode op, (opcode, _) => opcode = op
  | .number n, (opcode, vch) =>
    if IsSmall n then (opcode.toNat : Int) = n + (op1.toNat - 1)
    else opcode ≤ opPushData4 ∧ setvch vch = n
  | .bytes b, (opcode, vch) => opcode ≤ opPushData4 ∧ vch = b

/-- The bytes a push of the item carries. -/
def Item.payload : Item → Bytes
  | .opcode _ => []
  | .number n => if IsSmall n then [] else getvch n
  | .bytes b => b

/-- For every push, the bytes from its operand to the end of the script, cut to 32 bits, are not
fewer than the operand. -/
def Legible : List Item → Prop
  | [] => True
  | item :: items =>
    item.payload.length ≤ (item.payload.length + (build items).length) % 2 ^ 32 ∧ Legible items

/-! ## Numbers -/

variable {top opcode : UInt8} {n : Int} {b : Bytes} {item : Item} {items : List Item}
  {rest : CScript}

theorem sign_cleared (low : top < 0x80) : (top ||| 0x80) &&& 0x7f = top := by
  have bits : ∀ top : BitVec 8, top < 0x80 → (top ||| 0x80) &&& 0x7f = top := by decide
  exact UInt8.toBitVec_inj.mp (bits top.toBitVec low)

theorem sign_set : ¬ (top ||| 0x80) < 0x80 := by
  have bits : ∀ top : BitVec 8, ¬ (top ||| 0x80) < 0x80 := by decide
  exact bits top.toBitVec

theorem setvch_append {front : Bytes} :
    setvch (front ++ [top]) = if top < 0x80 then (readBytes (front ++ [top]) : Int)
      else -(readBytes (front ++ [top &&& 0x7f]) : Int) := by
  simp only [setvch, List.getLast?_append, List.getLast?_singleton, Option.some_or, dropLast_concat]

theorem setvch_getvch : setvch (getvch n) = n := by
  have value := readBytes_minimalBytes n.natAbs
  simp only [getvch]
  cases last : (minimalBytes n.natAbs).getLast? with
  | none =>
    rw [List.getLast?_eq_none_iff.mp last] at value
    have zero : n = 0 := Int.natAbs_eq_zero.mp value.symm
    rw [zero]
    rfl
  | some top =>
    obtain ⟨front, shape⟩ := List.getLast?_eq_some_iff.mp last
    rw [shape] at value ⊢
    simp only [dropLast_concat]
    -- the sign goes into the top bit if it is free, and into a byte of its own otherwise
    by_cases low : top < 0x80
    · rw [if_pos low]
      by_cases negative : n < 0
      · rw [if_pos negative, setvch_append, if_neg sign_set, sign_cleared low, value]
        omega
      · rw [if_neg negative, setvch_append, if_pos low, value]
        omega
    · rw [if_neg low]
      by_cases negative : n < 0
      · rw [if_pos negative, setvch_append, if_neg (by decide)]
        have cleared : (0x80 : UInt8) &&& 0x7f = 0 := by decide
        rw [cleared, readBytes_append_zero, value]
        omega
      · rw [if_neg negative, setvch_append, if_pos (by decide), readBytes_append_zero, value]
        omega

/-! ## One item -/

/-- The four forms of a push, whatever its opcode. -/
inductive IsPush : CScript → Bytes → Prop where
  | direct {vch : Bytes} (short : vch.length < opPushData1.toNat) :
      IsPush (UInt8.ofNat vch.length :: vch) vch
  | data1 {vch : Bytes} (sized : vch.length < 256 ^ 1) :
      IsPush (opPushData1 :: (leBytes 1 vch.length ++ vch)) vch
  | data2 {vch : Bytes} (sized : vch.length < 256 ^ 2) :
      IsPush (opPushData2 :: (leBytes 2 vch.length ++ vch)) vch
  | data4 {vch : Bytes} (sized : vch.length < 256 ^ 4) :
      IsPush (opPushData4 :: (leBytes 4 vch.length ++ vch)) vch

theorem isPush_pushVector (sized : b.length < 2 ^ 32) : IsPush (pushVector b) b := by
  unfold pushVector
  split_ifs with direct one two
  · exact IsPush.direct direct
  · exact IsPush.data1 (by omega)
  · exact IsPush.data2 (by omega)
  · exact IsPush.data4 (by omega)

theorem pushSize_field {width size : Nat} (rest : CScript)
    (read : ∀ bytes, pushSize opcode bytes =
      if bytes.length < width then none else some (readBytes (bytes.take width), bytes.drop width))
    (fits : size < 256 ^ width) :
    pushSize opcode (leBytes width size ++ rest) = some (size, rest) := by
  have enough : ¬ (leBytes width size ++ rest).length < width := by
    rw [length_append, leBytes_length]
    omega
  rw [read, if_neg enough, take_left' (leBytes_length width size),
    drop_left' (leBytes_length width size), readBytes_leBytes size fits]

section IsPush
variable {push : CScript} {vch : Bytes} (isPush : IsPush push vch)
include isPush

theorem IsPush.form : ∃ opcode field, push = opcode :: (field ++ vch) ∧ opcode ≤ opPushData4 ∧
      ∀ rest, pushSize opcode (field ++ rest) = some (vch.length, rest) := by
  cases isPush with
  | direct short =>
    have small : vch.length < 0x4c := short
    have value : (UInt8.ofNat vch.length).toNat = vch.length := toNat_byte (by omega)
    have below : UInt8.ofNat vch.length < opPushData1 := by
      rw [UInt8.lt_iff_toNat_lt, value]
      exact short
    refine ⟨UInt8.ofNat vch.length, [], rfl, ?_, fun rest => ?_⟩
    · exact UInt8.le_of_lt (UInt8.lt_of_lt_of_le below (by decide))
    · rw [pushSize, if_pos below, value, nil_append]
  | data1 sized =>
    exact ⟨_, _, rfl, by decide, fun rest => pushSize_field rest (fun bytes => rfl) sized⟩
  | data2 sized =>
    exact ⟨_, _, rfl, by decide, fun rest => pushSize_field rest (fun bytes => rfl) sized⟩
  | data4 sized =>
    exact ⟨_, _, rfl, by decide, fun rest => pushSize_field rest (fun bytes => rfl) sized⟩

theorem IsPush.getOp2_eq : ∃ opcode ≤ opPushData4, getOp2 (push ++ rest) =
      if vch.length ≤ (vch.length + rest.length) % 2 ^ 32 then some (opcode, vch, rest) else none := by
  obtain ⟨opcode, field, shape, low, read⟩ := isPush.form
  refine ⟨opcode, low, ?_⟩
  rw [shape, cons_append, append_assoc]
  simp only [getOp2, if_pos low, read, take_left, drop_left, length_append]
  by_cases legible : vch.length ≤ (vch.length + rest.length) % 2 ^ 32
  · rw [if_neg (not_lt.mpr legible), if_pos legible]
  · rw [if_pos (not_le.mp legible), if_neg legible]

end IsPush

def encode (item : Item) : CScript := append [] item

theorem append_eq {script : CScript} : append script item = script ++ encode item := by
  cases item <;> simp [append, encode]

theorem foldl_append (items : List Item) : ∀ script : CScript,
    items.foldl append script = script ++ build items := by
  induction items with
  | nil => intro script; simp [build]
  | cons item items ih =>
    intro script
    have unfolded : build (item :: items) = encode item ++ build items :=
      ih (encode item)
    rw [foldl_cons, ih, append_eq, unfolded, append_assoc]

theorem build_cons : build (item :: items) = encode item ++ build items :=
  foldl_append items (encode item)

theorem getOp2_ordinary (ordinary : opPushData4 < opcode) :
    getOp2 (opcode :: rest) = some (opcode, [], rest) := if_neg (UInt8.not_le.mpr ordinary)

theorem pushInt64_small (small : IsSmall n) :
    ∃ opcode, pushInt64 n = [opcode] ∧ (opcode.toNat : Int) = n + (op1.toNat - 1) ∧
      opPushData4 < opcode := by
  have range : 0x4f ≤ n + 0x50 ∧ n + 0x50 ≤ 0x60 := by rcases small with rfl | ⟨low, high⟩ <;> omega
  have code : (UInt8.ofNat (n + 0x50).toNat).toNat = (n + 0x50).toNat := toNat_byte (by omega)
  refine ⟨UInt8.ofNat (n + 0x50).toNat, if_pos small, ?_, ?_⟩
  · rw [code]
    change _ = n + 0x50
    omega
  · rw [UInt8.lt_iff_toNat_lt, code]
    change 0x4e < _
    omega

theorem getvch_sized (range : -2 ^ 63 ≤ n ∧ n < 2 ^ 63) : (getvch n).length < 2 ^ 32 := by
  have magnitude : n.natAbs < 256 ^ 8 := by omega
  exact (getvch_length magnitude).trans_lt (by decide)

theorem getOp2_encode (allowed : item.Allowed) :
    ∃ result, Yields item result ∧ getOp2 (encode item ++ rest) =
      if item.payload.length ≤ (item.payload.length + rest.length) % 2 ^ 32 then
        some (result.1, result.2, rest) else none := by
  cases item with
  | opcode op =>
    refine ⟨(op, []), rfl, ?_⟩
    rw [Item.payload, length_nil, if_pos (Nat.zero_le _)]
    exact getOp2_ordinary allowed
  | number n =>
    by_cases small : IsSmall n
    · obtain ⟨opcode, shape, code, ordinary⟩ := pushInt64_small small
      refine ⟨(opcode, []), ?_, ?_⟩
      · rw [Yields, if_pos small]
        exact code
      · rw [Item.payload, if_pos small, length_nil, if_pos (Nat.zero_le _), encode, append,
          nil_append, shape]
        exact getOp2_ordinary ordinary
    · obtain ⟨opcode, push, read⟩ := (isPush_pushVector (getvch_sized allowed)).getOp2_eq
      have pushed : pushInt64 n = pushVector (getvch n) := if_neg small
      refine ⟨(opcode, getvch n), ?_, ?_⟩
      · rw [Yields, if_neg small]
        exact ⟨push, setvch_getvch⟩
      · rw [Item.payload, if_neg small, encode, append, nil_append, pushed]
        exact read
  | bytes b =>
    obtain ⟨opcode, push, read⟩ := (isPush_pushVector allowed).getOp2_eq
    exact ⟨(opcode, b), ⟨push, rfl⟩, read⟩

theorem pushVector_pos : 0 < (pushVector b).length := by
  unfold pushVector
  split_ifs <;> simp

theorem encode_pos (item : Item) : 0 < (encode item).length := by
  cases item with
  | opcode op => exact Nat.one_pos
  | number n =>
    rw [encode, append, nil_append, pushInt64]
    split_ifs
    · exact Nat.one_pos
    · exact pushVector_pos
  | bytes b => exact pushVector_pos

/-! ## Sequences of items -/

theorem readOps_build : ∀ fuel : Nat, (∀ item ∈ items, item.Allowed) →
    (build items).length ≤ fuel →
    ((List.Forall₂ Yields items (readOps fuel (build items)).1 ∧
      (readOps fuel (build items)).2 = []) ↔ Legible items) := by
  induction items with
  | nil =>
    intro fuel _ _
    have stopped : readOps fuel (build []) = ([], []) := by cases fuel <;> rfl
    rw [stopped]
    exact iff_of_true ⟨List.Forall₂.nil, rfl⟩ trivial
  | cons item items ih =>
    intro fuel allowed enough
    have positive := encode_pos item
    rw [build_cons, length_append] at enough
    obtain ⟨left, rfl⟩ : ∃ left, fuel = left + 1 := ⟨fuel - 1, by omega⟩
    have later := ih left (fun item member => allowed item (by simp [member])) (by omega)
    obtain ⟨result, yields, read⟩ := getOp2_encode (allowed item (by simp))
    rw [build_cons, readOps, read, Legible]
    split_ifs with legible
    · simp only [forall₂_cons, Prod.mk.eta, yields, legible, true_and]
      exact later
    · -- the call fails, and the item is missing from the results
      refine iff_of_false (fun returned => ?_) (fun parsed => legible parsed.1)
      cases returned.1

theorem payload_length (item : Item) : item.payload.length ≤ (encode item).length := by
  cases item with
  | opcode op => exact Nat.zero_le _
  | number n =>
    rw [Item.payload, encode, append, nil_append]
    by_cases small : IsSmall n
    · rw [if_pos small]
      exact Nat.zero_le _
    · have pushed : pushInt64 n = pushVector (getvch n) := if_neg small
      rw [if_neg small, pushed]
      exact pushVector_length _
  | bytes b => exact pushVector_length b

theorem legible_of_short (short : (build items).length < 2 ^ 32) : Legible items := by
  induction items with
  | nil => trivial
  | cons item items ih =>
    have inside := payload_length item
    rw [build_cons, length_append] at short
    refine ⟨?_, ih (by omega)⟩
    rw [Nat.mod_eq_of_lt (by omega)]
    omega

/-- The calls return the items one by one and stop at the end of the script, exactly when no
push is refused for the bytes behind it. -/
theorem build_parses_back_iff (items : List Item) (allowed : ∀ item ∈ items, item.Allowed)
    (fuel : Nat) (enough : (build items).length ≤ fuel) :
    (List.Forall₂ Yields items (readOps fuel (build items)).1 ∧
      (readOps fuel (build items)).2 = []) ↔ Legible items :=
  readOps_build fuel allowed enough

def shortItems : List Item := [.number (-129), .bytes [1, 2, 3], .number 16, .opcode opCheckSig]

theorem allowed_shortItems : ∀ item ∈ shortItems, item.Allowed := by
  intro item member
  simp only [shortItems, mem_cons, not_mem_nil, or_false] at member
  rcases member with rfl | rfl | rfl | rfl
  · exact ⟨by decide, by decide⟩
  · exact Nat.lt_of_sub_pos (by decide)
  · exact ⟨by decide, by decide⟩
  · exact (by decide : opPushData4 < opCheckSig)

theorem build_parses_back_short :
    List.Forall₂ Yields shortItems (readOps 9 (build shortItems)).1 ∧
      (readOps 9 (build shortItems)).2 = [] :=
  (build_parses_back_iff shortItems allowed_shortItems 9 (by decide +kernel)).mpr
    (legible_of_short (by decide +kernel))

/-- A string of 2^32 - 1 bytes and one opcode. -/
def longItems : List Item := [.bytes (List.replicate (2 ^ 32 - 1) 0), .opcode opCheckSig]

theorem longItems_unread :
    (∀ item ∈ longItems, item.Allowed) ∧ ∀ fuel, (build longItems).length ≤ fuel →
      ¬ (List.Forall₂ Yields longItems (readOps fuel (build longItems)).1 ∧
        (readOps fuel (build longItems)).2 = []) := by
  have allowed : ∀ item ∈ longItems, item.Allowed := by
    intro item member
    simp only [longItems, mem_cons, not_mem_nil, or_false] at member
    rcases member with rfl | rfl
    · change (replicate (2 ^ 32 - 1) (0 : UInt8)).length < 2 ^ 32
      rw [length_replicate]
      decide
    · exact (by decide : opPushData4 < opCheckSig)
  refine ⟨allowed, fun fuel enough parsed => ?_⟩
  have legible := ((readOps_build fuel allowed enough).mp parsed).1
  simp only [Item.payload, length_replicate] at legible
  have rest : (build [.opcode opCheckSig]).length = 1 := rfl
  rw [rest] at legible
  exact absurd legible (by decide)

end SynergyData.ScriptBuild
