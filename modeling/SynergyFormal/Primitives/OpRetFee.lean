import SynergyFormal.Lib.Buffers
import SynergyFormal.Primitives.CheckTransaction

/-!
# The fee for `OP_RETURN` outputs, with addresses

`GetOpRetFee` reads each output script from a copy, but its second `GetOp` is called on
the original: the cursor is an address inside the copy and the end is the end of the
original.  Here an iterator is an address, and every script buffer lies where the
allocator put it.

* `getOp2` is the instruction reader on addresses; it fails (`none`) at a read outside
  the live buffers, and `Fetched` is what a call that stays inside leaves.
* `Layout` is a placement of the originals and of the copy made in each pass of the two
  loops.  A copy is live only in its own pass, so copies need not be apart from each other.
* `chargedSize` is the meaning of the fee: outputs in order, one exemption for each
  output that does not start with `OP_RETURN`.
* `fee_placement_independent_iff` says for which transactions the fee is that number
  whatever the placement.
-/

set_option autoImplicit false

namespace SynergyData.OpRetFee

open SynergyLib
open Wire Buffers Script Transaction CheckTransaction
open List hiding not_le not_lt range
open Option hiding some

/-! ## Reading instructions at addresses -/

/-- What `GetOp2` leaves behind: its result, `opcodeRet`, `vchRet` and the cursor. -/
structure Fetched where
  success : Bool
  opcodeRet : UInt8
  vchRet : Bytes
  pc : Nat
  deriving DecidableEq

def refused (pc : Nat) : Fetched := ⟨false, opInvalidOpcode, [], pc⟩

/-- `end() - pc` -/
def room (last pc : Nat) : Int := last - pc

def sizeField (live : List Buffer) (last pc width : Nat) : Option (Option (Nat × Nat)) :=
  if room last pc < width then some none
  else (loadRange live pc width).map fun bytes => some (readBytes bytes, pc + width)

/-- The operand size and the cursor behind it; `some none` when the size is cut off. -/
def operandSize (live : List Buffer) (last pc : Nat) (opcode : UInt8) :
    Option (Option (Nat × Nat)) :=
  if opcode < opPushData1 then some (some (opcode.toNat, pc))
  else if opcode = opPushData1 then sizeField live last pc 1
  else if opcode = opPushData2 then sizeField live last pc 2
  else sizeField live last pc 4

/-- The operand itself.  The number of bytes left is cut to an `unsigned int`. -/
def fetchOperand (live : List Buffer) (last : Nat) (opcode : UInt8) (nSize pc : Nat) :
    Option Fetched :=
  if room last pc < 0 ∨ (room last pc % 2 ^ 32).toNat < nSize then some (refused pc)
  else (loadRange live pc nSize).map fun vchRet => ⟨true, opcode, vchRet, pc + nSize⟩

def getOp2 (live : List Buffer) (last pc : Nat) : Option Fetched :=
  if last ≤ pc then some (refused pc)
  else if room last pc < 1 then some (refused pc)
  else
    (load live pc).bind fun opcode =>
      if opcode ≤ opPushData4 then
        (operandSize live last (pc + 1) opcode).bind fun
          | none => some (refused (pc + 1))
          | some (nSize, pc) => fetchOperand live last opcode nSize pc
      else some ⟨true, opcode, [], pc + 1⟩

/-! ## The fee loops -/

/-- An output with the address of its script and of the two copies made of it. -/
structure PlacedOut where
  txout : CTxOut
  original : Nat
  counted : Nat
  charged : Nat
  deriving DecidableEq

def PlacedOut.originalBuffer (out : PlacedOut) : Buffer := ⟨out.original, out.txout.scriptPubKey⟩
def PlacedOut.countedBuffer (out : PlacedOut) : Buffer := ⟨out.counted, out.txout.scriptPubKey⟩
def PlacedOut.chargedBuffer (out : PlacedOut) : Buffer := ⟨out.charged, out.txout.scriptPubKey⟩

structure Layout (vout : List CTxOut) where
  outs : List PlacedOut
  outputs : outs.map PlacedOut.txout = vout
  originalsApart : (outs.map PlacedOut.originalBuffer).Pairwise Apart
  copiesApart : ∀ out ∈ outs, ∀ other ∈ outs,
    Apart out.countedBuffer other.originalBuffer ∧ Apart out.chargedBuffer other.originalBuffer

/-- The first loop: outputs that do not start with `OP_RETURN` grant a free secret. -/
def countFree (originals : List Buffer) : List PlacedOut → Int → Option Int
  | [], nFreeSSecret => some nFreeSSecret
  | out :: rest, nFreeSSecret =>
    let scriptPK := out.countedBuffer
    (getOp2 (scriptPK :: originals) scriptPK.finish scriptPK.start).bind fun first =>
      countFree originals rest
        (if first.success = true ∧ first.opcodeRet = opReturn then nFreeSSecret
         else nFreeSSecret + 1)

/-- The second loop.  The second instruction is read up to the end of the original. -/
def chargeOuts (originals : List Buffer) : List PlacedOut → Int → Int → Option Int
  | [], _, nOpRetFee => some nOpRetFee
  | out :: rest, nFreeSSecret, nOpRetFee =>
    let scriptPK := out.chargedBuffer
    (getOp2 (scriptPK :: originals) scriptPK.finish scriptPK.start).bind fun first =>
      if first.success = true ∧ first.opcodeRet = opReturn then
        (getOp2 (scriptPK :: originals) out.originalBuffer.finish first.pc).bind fun second =>
          if second.success = false ∨ second.vchRet.length ≠ ecCompressedSize ∨
              nFreeSSecret < 1 then
            chargeOuts originals rest nFreeSSecret
              (nOpRetFee + opRetFeePerChar * out.txout.scriptPubKey.length)
          else chargeOuts originals rest (nFreeSSecret - 1) nOpRetFee
      else chargeOuts originals rest nFreeSSecret nOpRetFee

def getOpRetFeeAt {vout : List CTxOut} (layout : Layout vout) : Option Int :=
  let originals := layout.outs.map PlacedOut.originalBuffer
  (countFree originals layout.outs 0).bind fun nFreeSSecret =>
    chargeOuts originals layout.outs nFreeSSecret 0

/-- `GetMinFee` on the node whose buffers lie as in the layout. -/
def getMinFeeAt (tx : CTransaction) (layout : Layout tx.vout) (nBlockSize : UInt32)
    (mode : GetMinFeeMode) (nBytes : UInt32) : Option Int :=
  let nBaseFee := if mode = .relay then minRelayTxFee else minTxFee
  let flat := (1 + (nBytes.toNat / 1000 : Nat)) * nBaseFee
  let dusty := if flat < nBaseFee ∧ tx.vout.any (fun txout => txout.nValue.toInt < cent) then
      nBaseFee else flat
  match raiseForBlock nBlockSize (nBlockSize + nBytes) dusty with
  | none => some maxMoney
  | some nMinFee =>
    if 2 ≤ tx.nVersion then
      (getOpRetFeeAt layout).map fun nOpRetFee =>
        let total := nMinFee + getSwiftFee tx + nOpRetFee
        if moneyRange total then total else maxMoney
    else some (if moneyRange nMinFee then nMinFee else maxMoney)

/-! ## What the fee is meant to be -/

/-- The second instruction parses and pushes 33 bytes. -/
def carriesKey (scriptPK : CScript) : Bool :=
  match getOp (scriptPK.drop 1) with
  | some (_, vchR, _) => vchR.length == ecCompressedSize
  | none => false

/-- The outputs that grant an exemption. -/
def granted (vout : List CTxOut) : Nat :=
  (vout.filter fun txout => !isOpReturn txout.scriptPubKey).length

/-- The bytes that are paid for when `used` of the exemptions are gone. -/
def chargedSize (granted : Nat) : List CTxOut → Nat → Nat
  | [], _ => 0
  | txout :: rest, used =>
    if isOpReturn txout.scriptPubKey = true then
      if carriesKey txout.scriptPubKey = true ∧ used < granted then
        chargedSize granted rest (used + 1)
      else txout.scriptPubKey.length + chargedSize granted rest used
    else chargedSize granted rest used

variable {rest : CScript} {nOpRetFee nFreeSSecret : Int} {txout : CTxOut} {opcode : UInt8}
  {pc last : Nat} {originals live : List Buffer} {tx : CTransaction}

theorem getOp_opReturn : getOp (opReturn :: rest) = some (opReturn, [], rest) := by
  have ordinary : ¬ opReturn ≤ opPushData4 := by decide
  simp only [getOp, if_neg ordinary]

theorem isOpReturn_iff {scriptPK : CScript} :
    isOpReturn scriptPK = true ↔ ∃ rest, scriptPK = opReturn :: rest := by
  constructor
  · intro starts
    cases scriptPK with
    | nil => simp [isOpReturn, getOp] at starts
    | cons opcode rest =>
      suffices same : opcode = opReturn from ⟨rest, by rw [same]⟩
      simp only [isOpReturn, getOp] at starts
      split_ifs at starts with push
      · cases sized : pushSize opcode rest with
        | none => simp [sized] at starts
        | some pair =>
          obtain ⟨nSize, operand⟩ := pair
          simp only [sized] at starts
          split_ifs at starts
          simpa using starts
      · simpa using starts
  · intro starts
    obtain ⟨rest, rfl⟩ := starts
    simp [isOpReturn, getOp_opReturn]

theorem opRetFee_opReturn {rest : List CTxOut} (starts : isOpReturn txout.scriptPubKey = true) :
    opRetFee (txout :: rest) nFreeSSecret nOpRetFee =
      if carriesKey txout.scriptPubKey = false ∨ nFreeSSecret < 1 then
        opRetFee rest nFreeSSecret (nOpRetFee + opRetFeePerChar * txout.scriptPubKey.length)
      else opRetFee rest (nFreeSSecret - 1) nOpRetFee := by
  obtain ⟨later, shape⟩ := isOpReturn_iff.mp starts
  rw [opRetFee, shape, getOp_opReturn]
  rfl

theorem opRetFee_other {rest : List CTxOut} (starts : ¬ isOpReturn txout.scriptPubKey = true) :
    opRetFee (txout :: rest) nFreeSSecret nOpRetFee = opRetFee rest nFreeSSecret nOpRetFee := by
  simp only [opRetFee]
  cases read : getOp txout.scriptPubKey with
  | none => rfl
  | some triple =>
    obtain ⟨opcode, data, pc⟩ := triple
    have other : opcode ≠ opReturn := fun same => starts (by simp [isOpReturn, read, same])
    simp only [if_neg other]

theorem opRetFee_eq (granted : Nat) (vout : List CTxOut) :
    ∀ (used : Nat) (nOpRetFee : Int), used ≤ granted →
      opRetFee vout ((granted : Int) - used) nOpRetFee =
        nOpRetFee + opRetFeePerChar * chargedSize granted vout used := by
  induction vout with
  | nil =>
    intro used nOpRetFee _
    simp [opRetFee, chargedSize]
  | cons txout rest ih =>
    intro used nOpRetFee bound
    by_cases starts : isOpReturn txout.scriptPubKey = true
    · rw [opRetFee_opReturn starts, chargedSize, if_pos starts]
      by_cases exempt : carriesKey txout.scriptPubKey = true ∧ used < granted
      · have free : ¬ (carriesKey txout.scriptPubKey = false ∨ (granted : Int) - used < 1) := by
          simp only [exempt.1, Bool.true_eq_false, false_or]
          omega
        rw [if_neg free, if_pos exempt, ← ih (used + 1) nOpRetFee exempt.2]
        congr 1
        push_cast
        ring
      · have paid : carriesKey txout.scriptPubKey = false ∨ (granted : Int) - used < 1 := by
          by_cases carries : carriesKey txout.scriptPubKey = true
          · have none : ¬ used < granted := fun more => exempt ⟨carries, more⟩
            exact Or.inr (by omega)
          · exact Or.inl (by simpa using carries)
        rw [if_pos paid, if_neg exempt, ih used _ bound]
        push_cast
        ring
    · rw [opRetFee_other starts, ih used nOpRetFee bound, chargedSize, if_neg starts]

theorem getOpRetFee_eq (tx : CTransaction) :
    getOpRetFee tx = opRetFeePerChar * chargedSize (granted tx.vout) tx.vout 0 := by
  have value := opRetFee_eq (granted tx.vout) tx.vout 0 0 (Nat.zero_le _)
  rw [Nat.cast_zero, sub_zero, zero_add] at value
  exact value

/-! ## Reads that stay inside the copy -/

/-- An operand size is the opcode itself or a little-endian field of one, two or four bytes,
and the reader on lists takes it from the same place. -/
theorem size_form :
    ((∀ live last pc, operandSize live last pc opcode = some (some (opcode.toNat, pc))) ∧
      ∀ rest, pushSize opcode rest = some (opcode.toNat, rest)) ∨
    ∃ width, 1 ≤ width ∧ width ≤ 4 ∧
      (∀ live last pc, operandSize live last pc opcode = sizeField live last pc width) ∧
      ∀ rest, pushSize opcode rest =
        if rest.length < width then none else some (readBytes (rest.take width), rest.drop width) := by
  by_cases direct : opcode < opPushData1
  · exact Or.inl ⟨fun live last pc => if_pos direct, fun rest => if_pos direct⟩
  · right
    by_cases one : opcode = opPushData1
    · refine ⟨1, by omega, by omega, fun live last pc => ?_, fun rest => ?_⟩
      · rw [operandSize, if_neg direct, if_pos one]
      · rw [pushSize, if_neg direct, if_pos one]
    · by_cases two : opcode = opPushData2
      · refine ⟨2, by omega, by omega, fun live last pc => ?_, fun rest => ?_⟩
        · rw [operandSize, if_neg direct, if_neg one, if_pos two]
        · rw [pushSize, if_neg direct, if_neg one, if_pos two]
      · refine ⟨4, by omega, by omega, fun live last pc => ?_, fun rest => ?_⟩
        · rw [operandSize, if_neg direct, if_neg one, if_neg two]
        · rw [pushSize, if_neg direct, if_neg one, if_neg two]

theorem getOp_push_isSome (rest : CScript) (push : opcode ≤ opPushData4) :
    (getOp (opcode :: rest)).isSome = true ↔
      ∃ nSize operand, pushSize opcode rest = some (nSize, operand) ∧ nSize ≤ operand.length := by
  rw [getOp, if_pos push]
  cases sized : pushSize opcode rest with
  | none => simp
  | some pair =>
    obtain ⟨nSize, operand⟩ := pair
    by_cases short : operand.length < nSize
    · simp [short]
    · simp [short, not_lt.mp short]

theorem room_cut (left : ¬ room last pc < 0) :
    ((room last pc % 2 ^ 32).toNat : Int) ≤ room last pc := by
  omega

section Inside
variable (scriptPK : Buffer) (others : List Buffer) (last : Nat)

theorem fetchOperand_inside (opcode : UInt8) (nSize i : Nat) (start : i ≤ scriptPK.bytes.length)
    (safe : last ≤ scriptPK.finish ∨ nSize ≤ (scriptPK.bytes.drop i).length) :
    ∃ fetched,
      fetchOperand (scriptPK :: others) last opcode nSize (scriptPK.start + i) = some fetched ∧
      (fetched.success = true → nSize ≤ (scriptPK.bytes.drop i).length ∧
        fetched.opcodeRet = opcode ∧ fetched.vchRet = (scriptPK.bytes.drop i).take nSize) := by
  unfold fetchOperand
  split
  · exact ⟨_, rfl, fun impossible => by cases impossible⟩
  · rename_i fits
    have inside : nSize ≤ (scriptPK.bytes.drop i).length := by
      rcases safe with ending | fits
      · have cut := room_cut (fun less => fits (Or.inl less))
        have enough : ¬ (room last (scriptPK.start + i) % 2 ^ 32).toNat < nSize :=
          fun less => fits (Or.inr less)
        simp only [length_drop, Buffer.finish, room] at *
        omega
      · exact fits
    have range : i + nSize ≤ scriptPK.bytes.length := by
      rw [length_drop] at inside
      omega
    rw [loadRange_inside scriptPK others nSize i range]
    exact ⟨_, rfl, fun _ => ⟨inside, rfl, rfl⟩⟩

variable {i : Nat}

theorem operandSize_inside (start : i ≤ scriptPK.bytes.length)
    (safe : last ≤ scriptPK.finish ∨ (pushSize opcode (scriptPK.bytes.drop i)).isSome = true) :
    operandSize (scriptPK :: others) last (scriptPK.start + i) opcode = some none ∨
    ∃ nSize j, operandSize (scriptPK :: others) last (scriptPK.start + i) opcode =
        some (some (nSize, scriptPK.start + j)) ∧
      j ≤ scriptPK.bytes.length ∧
      pushSize opcode (scriptPK.bytes.drop i) = some (nSize, scriptPK.bytes.drop j) := by
  rcases size_form with ⟨sized, listed⟩ | ⟨width, _, _, sized, listed⟩
  · exact Or.inr ⟨opcode.toNat, i, sized _ _ _, start, listed _⟩
  · rw [sized, listed]
    by_cases roomy : room last (scriptPK.start + i) < width
    · exact Or.inl (by rw [sizeField, if_pos roomy])
    · have wide : width ≤ (scriptPK.bytes.drop i).length := by
        rcases safe with ending | parsed
        · simp only [length_drop, room, Buffer.finish] at *
          omega
        · rw [listed] at parsed
          by_contra short
          rw [if_pos (not_le.mp short)] at parsed
          cases parsed
      have range : i + width ≤ scriptPK.bytes.length := by
        rw [length_drop] at wide
        omega
      refine Or.inr ⟨readBytes ((scriptPK.bytes.drop i).take width), i + width, ?_, range, ?_⟩
      · rw [sizeField, if_neg roomy, loadRange_inside scriptPK others width i range,
          map_some, Nat.add_assoc]
      · rw [if_neg (not_lt.mpr wide), drop_drop]

/-- A call whose end is not behind the copy, or whose instruction is complete in the copy,
reads inside the copy; what it reports is what the copy holds there. -/
theorem getOp2_inside (start : i ≤ scriptPK.bytes.length)
    (safe : last ≤ scriptPK.finish ∨ (getOp (scriptPK.bytes.drop i)).isSome = true) :
    ∃ fetched, getOp2 (scriptPK :: others) last (scriptPK.start + i) = some fetched ∧
      (fetched.success = true → ∃ later,
        getOp (scriptPK.bytes.drop i) = some (fetched.opcodeRet, fetched.vchRet, later)) := by
  have refusal : ∀ pc, (refused pc).success = true → ∃ later,
      getOp (scriptPK.bytes.drop i) = some ((refused pc).opcodeRet, (refused pc).vchRet, later) :=
    fun pc impossible => by cases impossible
  by_cases ended : last ≤ scriptPK.start + i
  · exact ⟨_, if_pos ended, refusal _⟩
  have more : ¬ room last (scriptPK.start + i) < 1 := by
    simp only [room]
    omega
  rw [getOp2, if_neg ended, if_neg more]
  cases shape : scriptPK.bytes.drop i with
  | nil =>
    have exhausted : scriptPK.bytes.length ≤ i := drop_eq_nil_iff.mp shape
    rcases safe with ending | parsed
    · simp only [Buffer.finish] at ending
      omega
    · simp [shape, getOp] at parsed
  | cons opcode rest =>
    have here : i < scriptPK.bytes.length := by
      have lengths := congrArg List.length shape
      simp only [length_drop, length_cons] at lengths
      omega
    have following : scriptPK.bytes.drop (i + 1) = rest := by
      rw [← drop_drop, shape]
      rfl
    have read : load (scriptPK :: others) (scriptPK.start + i) = some opcode := by
      rw [load_inside scriptPK others i here, ← List.head?_drop, shape]
      rfl
    rw [shape] at safe refusal
    rw [read, bind_some, Nat.add_assoc]
    by_cases push : opcode ≤ opPushData4
    · rw [if_pos push]
      have complete := getOp_push_isSome rest push
      rcases operandSize_inside scriptPK others last here
          (safe.imp_right fun parsed => by
            obtain ⟨nSize, operand, listed, _⟩ := complete.mp parsed
            rw [following, listed]
            rfl) with cut | ⟨nSize, j, sized, bound, listed⟩
      · rw [cut]
        exact ⟨_, rfl, refusal _⟩
      · rw [following] at listed
        obtain ⟨fetched, call, reports⟩ := fetchOperand_inside scriptPK others last opcode nSize j
          bound (safe.imp_right fun parsed => by
            obtain ⟨size, operand, same, fits⟩ := complete.mp parsed
            rw [listed] at same
            cases same
            exact fits)
        refine ⟨fetched, by rw [sized]; exact call, fun success => ?_⟩
        obtain ⟨fits, sameOpcode, sameData⟩ := reports success
        exact ⟨(scriptPK.bytes.drop j).drop nSize, by simp only [getOp, if_pos push, listed,
          if_neg (not_lt.mpr fits), sameOpcode, sameData]⟩
    · rw [if_neg push]
      exact ⟨_, rfl, fun _ => ⟨rest, by rw [getOp, if_neg push]⟩⟩

end Inside

theorem getOp2_first {scriptPK : Buffer} {others : List Buffer} :
    ∃ first, getOp2 (scriptPK :: others) scriptPK.finish scriptPK.start = some first ∧
      ((first.success = true ∧ first.opcodeRet = opReturn) ↔ isOpReturn scriptPK.bytes = true) ∧
      (isOpReturn scriptPK.bytes = true → first.pc = scriptPK.start + 1) := by
  by_cases starts : isOpReturn scriptPK.bytes = true
  · obtain ⟨rest, shape⟩ := isOpReturn_iff.mp starts
    have size : scriptPK.bytes.length = rest.length + 1 := by rw [shape, length_cons]
    have more : ¬ scriptPK.finish ≤ scriptPK.start := by
      rw [Buffer.finish, size]
      omega
    have byte : ¬ room scriptPK.finish scriptPK.start < 1 := by
      rw [Buffer.finish, room, size]
      omega
    have read := load_inside scriptPK others 0 (by omega)
    rw [Nat.add_zero, shape, List.getElem?_cons_zero] at read
    refine ⟨⟨true, opReturn, [], scriptPK.start + 1⟩, ?_, ⟨fun _ => starts, fun _ => ⟨rfl, rfl⟩⟩,
      fun _ => rfl⟩
    rw [getOp2, if_neg more, if_neg byte, read, bind_some, if_neg (by decide)]
  · obtain ⟨first, call, reports⟩ := getOp2_inside scriptPK others scriptPK.finish (Nat.zero_le _)
      (Or.inl le_rfl)
    rw [Nat.add_zero] at call
    refine ⟨first, call, ⟨fun reported => ?_, fun same => absurd same starts⟩,
      fun same => absurd same starts⟩
    obtain ⟨later, parsed⟩ := reports reported.1
    rw [drop_zero, reported.2] at parsed
    simp [isOpReturn, parsed]

theorem countFree_eq (originals : List Buffer) (outs : List PlacedOut) :
    ∀ nFreeSSecret : Int, countFree originals outs nFreeSSecret =
      some (nFreeSSecret + granted (outs.map PlacedOut.txout)) := by
  induction outs with
  | nil =>
    intro nFreeSSecret
    simp [countFree, granted]
  | cons out rest ih =>
    intro nFreeSSecret
    obtain ⟨first, call, reports, _⟩ := getOp2_first
    rw [countFree, call, bind_some, ih]
    have bytes : out.countedBuffer.bytes = out.txout.scriptPubKey := rfl
    rw [bytes] at reports
    by_cases starts : isOpReturn out.txout.scriptPubKey = true
    · rw [if_pos (reports.mpr starts)]
      simp [granted, starts]
    · rw [if_neg fun reported => starts (reports.mp reported)]
      simp [granted, starts]
      ring

theorem chargeOuts_cons {out : PlacedOut} {rest : List PlacedOut} :
    chargeOuts originals (out :: rest) nFreeSSecret nOpRetFee =
      if isOpReturn out.txout.scriptPubKey = true then
        (getOp2 (out.chargedBuffer :: originals) out.originalBuffer.finish
            (out.charged + 1)).bind fun second =>
          if second.success = false ∨ second.vchRet.length ≠ ecCompressedSize ∨
              nFreeSSecret < 1 then
            chargeOuts originals rest nFreeSSecret
              (nOpRetFee + opRetFeePerChar * out.txout.scriptPubKey.length)
          else chargeOuts originals rest (nFreeSSecret - 1) nOpRetFee
      else chargeOuts originals rest nFreeSSecret nOpRetFee := by
  obtain ⟨first, call, reports, cursor⟩ := getOp2_first
  have bytes : out.chargedBuffer.bytes = out.txout.scriptPubKey := rfl
  rw [bytes] at reports cursor
  rw [chargeOuts, call, bind_some]
  by_cases starts : isOpReturn out.txout.scriptPubKey = true
  · rw [if_pos (reports.mpr starts), if_pos starts, cursor starts]
    rfl
  · rw [if_neg fun reported => starts (reports.mp reported), if_neg starts]

/-! ## Transactions with one fee -/

/-- The second instruction of every `OP_RETURN` output is complete, and none that carries a
key can claim an exemption. -/
def FixedFee (vout : List CTxOut) : Prop :=
  ∀ txout ∈ vout, isOpReturn txout.scriptPubKey = true →
    (getOp (txout.scriptPubKey.drop 1)).isSome = true ∧
      (carriesKey txout.scriptPubKey = true → granted vout = 0)

instance (vout : List CTxOut) : Decidable (FixedFee vout) :=
  inferInstanceAs (Decidable (∀ txout ∈ vout, _ → _))

theorem chargeOuts_fixed {outs : List PlacedOut} : ∀ nFreeSSecret nOpRetFee : Int,
      (∀ out ∈ outs, isOpReturn out.txout.scriptPubKey = true →
        (getOp (out.txout.scriptPubKey.drop 1)).isSome = true ∧
          (carriesKey out.txout.scriptPubKey = true → nFreeSSecret < 1)) →
      chargeOuts originals outs nFreeSSecret nOpRetFee =
        some (opRetFee (outs.map PlacedOut.txout) nFreeSSecret nOpRetFee) := by
  induction outs with
  | nil =>
    intro nFreeSSecret nOpRetFee _
    rfl
  | cons out rest ih =>
    intro nFreeSSecret nOpRetFee fixed
    have later := fun nOpRetFee => ih nFreeSSecret nOpRetFee
      fun other member => fixed other (mem_cons_of_mem _ member)
    rw [chargeOuts_cons, map_cons]
    by_cases starts : isOpReturn out.txout.scriptPubKey = true
    · obtain ⟨complete, claims⟩ := fixed out mem_cons_self starts
      obtain ⟨tail, shape⟩ := isOpReturn_iff.mp starts
      obtain ⟨second, call, reports⟩ := getOp2_inside out.chargedBuffer originals
        out.originalBuffer.finish (by show 1 ≤ out.txout.scriptPubKey.length; simp [shape])
        (Or.inr complete)
      -- whether or not the reader gets past the end of the original, the output is paid for
      have paid : second.success = false ∨ second.vchRet.length ≠ ecCompressedSize ∨
          nFreeSSecret < 1 := by
        cases reported : second.success with
        | false => exact Or.inl rfl
        | true =>
          obtain ⟨behind, parsed⟩ := reports reported
          by_cases key : second.vchRet.length = ecCompressedSize
          · refine Or.inr (Or.inr (claims ?_))
            have same : getOp (out.txout.scriptPubKey.drop 1) =
              some (second.opcodeRet, second.vchRet, behind) := parsed
            simp only [carriesKey, same, key, beq_self_eq_true]
          · exact Or.inr (Or.inl key)
      have owed : carriesKey out.txout.scriptPubKey = false ∨ nFreeSSecret < 1 := by
        cases carries : carriesKey out.txout.scriptPubKey with
        | false => exact Or.inl rfl
        | true => exact Or.inr (claims carries)
      have read : getOp2 (out.chargedBuffer :: originals) out.originalBuffer.finish
        (out.charged + 1) = some second := call
      rw [if_pos starts, opRetFee_opReturn starts, if_pos owed, read, bind_some, if_pos paid]
      exact later _
    · rw [if_neg starts, opRetFee_other starts]
      exact later _

theorem getOpRetFeeAt_fixed (fixed : FixedFee tx.vout) (layout : Layout tx.vout) :
    getOpRetFeeAt layout = some (getOpRetFee tx) := by
  have outputs := layout.outputs
  rw [getOpRetFeeAt]
  simp only [countFree_eq, outputs, bind_some, zero_add]
  rw [chargeOuts_fixed, outputs]
  · rfl
  · intro out member starts
    have known : out.txout ∈ tx.vout := outputs ▸ List.mem_map_of_mem member
    obtain ⟨complete, claims⟩ := fixed out.txout known starts
    refine ⟨complete, fun carries => ?_⟩
    rw [claims carries]
    decide

/-! ## Placements that show the difference -/

/-- Originals in order, ending `tail` bytes behind the multiples of `gap`; all copies at
one address. -/
def spread (gap tail copyAt : Nat) : Nat → List CTxOut → List PlacedOut
  | _, [] => []
  | k, txout :: rest =>
    ⟨txout, gap * (k + 1) + tail - txout.scriptPubKey.length, copyAt, copyAt⟩ ::
      spread gap tail copyAt (k + 1) rest

section Spread
variable {gap : Nat} (tail copyAt : Nat)

theorem map_spread {vout : List CTxOut} :
    ∀ k, (spread gap tail copyAt k vout).map PlacedOut.txout = vout := by
  induction vout with
  | nil => exact fun _ => rfl
  | cons txout rest ih =>
    intro k
    rw [spread, map_cons, ih]

theorem mem_spread (vout : List CTxOut)
    (short : ∀ txout ∈ vout, 2 * txout.scriptPubKey.length ≤ gap) :
    ∀ k, ∀ out ∈ spread gap tail copyAt k vout,
      out.charged = copyAt ∧ out.counted = copyAt ∧ 2 * out.txout.scriptPubKey.length ≤ gap ∧
      ∃ j, k ≤ j ∧ j < k + vout.length ∧
        out.original + out.txout.scriptPubKey.length = gap * (j + 1) + tail := by
  induction vout with
  | nil =>
    intro k out member
    cases member
  | cons txout rest ih =>
    intro k out member
    have size := short txout mem_cons_self
    rw [spread] at member
    rcases mem_cons.mp member with rfl | later
    · refine ⟨rfl, rfl, size, k, le_rfl, by simp, ?_⟩
      have large : gap ≤ gap * (k + 1) := Nat.le_mul_of_pos_right gap (Nat.succ_pos k)
      exact Nat.sub_add_cancel (by omega)
    · obtain ⟨charged, counted, fits, j, lower, upper, finish⟩ := ih
        (fun other known => short other (mem_cons_of_mem _ known)) (k + 1) out later
      exact ⟨charged, counted, fits, j, by omega, by simp only [length_cons]; omega, finish⟩

theorem originals_spread {vout : List CTxOut}
    (short : ∀ txout ∈ vout, 2 * txout.scriptPubKey.length ≤ gap) :
    ∀ k, ((spread gap tail copyAt k vout).map PlacedOut.originalBuffer).Pairwise Apart := by
  induction vout with
  | nil => exact fun _ => List.Pairwise.nil
  | cons txout rest ih =>
    intro k
    have size := short txout mem_cons_self
    have shorter : ∀ other ∈ rest, 2 * other.scriptPubKey.length ≤ gap :=
      fun other known => short other (mem_cons_of_mem _ known)
    rw [spread, map_cons]
    apply List.Pairwise.cons
    · intro buffer member
      obtain ⟨out, placed, rfl⟩ := List.mem_map.mp member
      obtain ⟨_, _, fits, j, lower, _, finish⟩ :=
        mem_spread tail copyAt rest shorter (k + 1) out placed
      have next : gap * (k + 1) + gap ≤ gap * (j + 1) := by
        have steps : gap * (k + 2) ≤ gap * (j + 1) := Nat.mul_le_mul_left gap (by omega)
        linarith
      refine Or.inr (Or.inr (Or.inl ?_))
      simp only [PlacedOut.originalBuffer, Buffer.finish]
      omega
    · exact ih shorter (k + 1)

def spreadLayout (vout : List CTxOut)
    (short : ∀ txout ∈ vout, 2 * txout.scriptPubKey.length ≤ gap)
    (clear : copyAt = 0 ∨ gap * (vout.length + 1) + tail ≤ copyAt) : Layout vout where
  outs := spread gap tail copyAt 0 vout
  outputs := map_spread tail copyAt 0
  originalsApart := originals_spread tail copyAt short 0
  copiesApart := by
    intro out member other placed
    obtain ⟨charged, counted, size, _⟩ := mem_spread tail copyAt vout short 0 out member
    obtain ⟨_, _, fits, j, _, upper, finish⟩ := mem_spread tail copyAt vout short 0 other placed
    have apart : Apart ⟨copyAt, out.txout.scriptPubKey⟩ other.originalBuffer := by
      have first : gap ≤ gap * (j + 1) := Nat.le_mul_of_pos_right gap (Nat.succ_pos j)
      have last : gap * (j + 1) ≤ gap * (vout.length + 1) := Nat.mul_le_mul_left gap (by omega)
      simp only [Apart, PlacedOut.originalBuffer, Buffer.finish]
      rcases clear with bottom | top
      · exact Or.inr (Or.inr (Or.inl (by omega)))
      · exact Or.inr (Or.inr (Or.inr (by omega)))
    exact ⟨by rw [PlacedOut.countedBuffer, counted]; exact apart,
      by rw [PlacedOut.chargedBuffer, charged]; exact apart⟩

end Spread

/-! ### Copies above the originals -/

/-- The bytes of all outputs that start with `OP_RETURN`. -/
def opReturnSize : List CTxOut → Nat
  | [] => 0
  | txout :: rest =>
    (if isOpReturn txout.scriptPubKey = true then txout.scriptPubKey.length else 0) +
      opReturnSize rest

theorem chargeOuts_above (originals : List Buffer) (outs : List PlacedOut)
    (above : ∀ out ∈ outs, out.originalBuffer.finish ≤ out.charged + 1) :
    ∀ nFreeSSecret nOpRetFee : Int, chargeOuts originals outs nFreeSSecret nOpRetFee =
      some (nOpRetFee + opRetFeePerChar * opReturnSize (outs.map PlacedOut.txout)) := by
  induction outs with
  | nil =>
    intro nFreeSSecret nOpRetFee
    simp [chargeOuts, opReturnSize]
  | cons out rest ih =>
    intro nFreeSSecret nOpRetFee
    have later := ih fun other known => above other (mem_cons_of_mem _ known)
    have nothing : getOp2 (out.chargedBuffer :: originals) out.originalBuffer.finish
        (out.charged + 1) = some (refused (out.charged + 1)) :=
      if_pos (above out mem_cons_self)
    rw [chargeOuts_cons, map_cons, opReturnSize]
    by_cases starts : isOpReturn out.txout.scriptPubKey = true
    · rw [if_pos starts, if_pos starts, nothing, bind_some,
        if_pos (Or.inl (show (refused _).success = false from rfl)), later]
      push_cast
      ring_nf
    · rw [if_neg starts, if_neg starts, later, zero_add]

theorem chargedSize_le (granted : Nat) (vout : List CTxOut) :
    ∀ used, chargedSize granted vout used ≤ opReturnSize vout := by
  induction vout with
  | nil => exact fun _ => le_rfl
  | cons txout rest ih =>
    intro used
    have next := ih (used + 1)
    have same := ih used
    rw [chargedSize, opReturnSize]
    split_ifs <;> omega

theorem chargedSize_lt (granted used : Nat) (left : used < granted) (vout : List CTxOut)
    (claims : ∃ txout ∈ vout, isOpReturn txout.scriptPubKey = true ∧
      carriesKey txout.scriptPubKey = true) :
    chargedSize granted vout used < opReturnSize vout := by
  induction vout with
  | nil =>
    obtain ⟨_, member, _⟩ := claims
    cases member
  | cons txout rest ih =>
    obtain ⟨claimant, member, starts, carries⟩ := claims
    have bound := chargedSize_le granted rest (used + 1)
    have filled : isOpReturn txout.scriptPubKey = true → 0 < txout.scriptPubKey.length := by
      intro starts
      obtain ⟨_, shape⟩ := isOpReturn_iff.mp starts
      simp [shape]
    rw [chargedSize, opReturnSize]
    rcases mem_cons.mp member with rfl | later
    · have one := filled starts
      rw [if_pos starts, if_pos starts, if_pos ⟨carries, left⟩]
      omega
    · have less := ih ⟨claimant, later, starts, carries⟩
      split_ifs with here claim
      · have one := filled here
        omega
      · omega
      · omega

/-! ### Copies below the originals -/

theorem fetchOperand_overrun {hole : Nat} {nSize : Nat} (missing : load live hole = none)
    (small : nSize < 2 ^ 32) (far : pc ≤ last) (left : (room last pc % 2 ^ 32).toNat = 2 ^ 32 - 1)
    (before : pc ≤ hole) (beyond : hole < pc + nSize) :
    fetchOperand live last opcode nSize pc = none := by
  have enough : ¬ (room last pc < 0 ∨ (room last pc % 2 ^ 32).toNat < nSize) := by
    rw [left, room]
    omega
  rw [fetchOperand, if_neg enough, loadRange_outside missing pc before beyond, map_none]

theorem getOp2_started (read : load live 1 = some opcode) (push : opcode ≤ opPushData4)
    (far : 6 ≤ last) : getOp2 live last 1 = (operandSize live last 2 opcode).bind fun
      | none => some (refused 2)
      | some (nSize, pc) => fetchOperand live last opcode nSize pc := by
  have more : ¬ room last 1 < 1 := by
    rw [room]
    omega
  rw [getOp2, if_neg (by omega), if_neg more, read, bind_some, if_pos push]

/-- An instruction that runs over the end of the copy is read past it when the end of the
original is far away; `cursor` is where its operand starts. -/
theorem getOp2_overrun (cut : getOp rest = none) :
    ∃ cursor ≤ 6, ∀ (others : List Buffer) (last : Nat),
      (∀ buffer ∈ others, ¬ buffer.Holds (rest.length + 1)) → 6 ≤ last →
      (room last cursor % 2 ^ 32).toNat = 2 ^ 32 - 1 →
      getOp2 (⟨0, opReturn :: rest⟩ :: others) last 1 = none := by
  have missing : ∀ others : List Buffer, (∀ buffer ∈ others, ¬ buffer.Holds (rest.length + 1)) →
      load (⟨0, opReturn :: rest⟩ :: others) (rest.length + 1) = none := by
    intro others outside
    apply load_outside
    intro buffer member
    rcases mem_cons.mp member with rfl | other
    · simp [Buffer.Holds, Buffer.finish]
    · exact outside buffer other
  cases rest with
  | nil =>
    refine ⟨6, le_rfl, fun others last outside far _ => ?_⟩
    have more : ¬ room last 1 < 1 := by
      rw [room]
      omega
    have hole := missing others outside
    rw [length_nil, Nat.zero_add] at hole
    rw [getOp2, if_neg (by omega), if_neg more, hole, bind_none]
  | cons opcode more =>
    have push : opcode ≤ opPushData4 := by
      by_contra ordinary
      rw [getOp, if_neg ordinary] at cut
      cases cut
    have incomplete : ∀ nSize operand, pushSize opcode more = some (nSize, operand) →
        operand.length < nSize := by
      intro nSize operand sized
      by_contra fits
      have complete := (getOp_push_isSome more push).mpr ⟨nSize, operand, sized, not_lt.mp fits⟩
      rw [cut] at complete
      cases complete
    have read : ∀ others, load (⟨0, opReturn :: opcode :: more⟩ :: others) 1 = some opcode :=
      fun others => load_inside ⟨0, opReturn :: opcode :: more⟩ others 1 (by simp)
    rcases size_form with ⟨sized, listed⟩ | ⟨width, wide, narrow, sized, listed⟩
    · refine ⟨2, by omega, fun others last outside far left => ?_⟩
      have short := incomplete _ _ (listed more)
      have small : opcode.toNat < 256 := opcode.toNat_lt
      rw [getOp2_started (read others) push far, sized, bind_some]
      refine fetchOperand_overrun (missing others outside) (by omega) (by omega) left ?_
        ?_ <;> simp only [length_cons] <;> omega
    · refine ⟨2 + width, by omega, fun others last outside far left => ?_⟩
      have roomy : ¬ room last 2 < width := by
        rw [room]
        omega
      rw [getOp2_started (read others) push far, sized, sizeField, if_neg roomy]
      by_cases short : more.length < width
      · rw [loadRange_outside (missing others outside) 2 (by simp only [length_cons]; omega)
          (by simp only [length_cons]; omega)]
        rfl
      · have sizes := listed more
        rw [if_neg short] at sizes
        have beyond := incomplete _ _ sizes
        rw [length_drop] at beyond
        have field := loadRange_inside ⟨0, opReturn :: opcode :: more⟩ others width 2
          (by simp only [length_cons]; omega)
        simp only [Nat.zero_add, drop_succ_cons, drop_zero] at field
        have small : readBytes (more.take width) < 2 ^ 32 := by
          refine lt_of_lt_of_le readBytes_lt ?_
          calc 256 ^ (more.take width).length ≤ 256 ^ 4 :=
                Nat.pow_le_pow_right (by decide) (by rw [length_take]; omega)
            _ = 2 ^ 32 := by norm_num
        rw [field, map_some, bind_some]
        refine fetchOperand_overrun (missing others outside) small (by omega) left ?_
          ?_ <;> simp only [length_cons] <;> omega

theorem chargeOuts_none (originals : List Buffer) (outs : List PlacedOut) (out : PlacedOut)
    (member : out ∈ outs) (starts : isOpReturn out.txout.scriptPubKey = true)
    (leaves : getOp2 (out.chargedBuffer :: originals) out.originalBuffer.finish
      (out.charged + 1) = none) :
    ∀ nFreeSSecret nOpRetFee : Int, chargeOuts originals outs nFreeSSecret nOpRetFee = none := by
  induction outs with
  | nil => cases member
  | cons first rest ih =>
    intro nFreeSSecret nOpRetFee
    rw [chargeOuts_cons]
    rcases mem_cons.mp member with rfl | later
    · rw [if_pos starts, leaves, bind_none]
    · have stops := ih later
      split
      · cases getOp2 (first.chargedBuffer :: originals) first.originalBuffer.finish
            (first.charged + 1) with
        | none => rfl
        | some second =>
          rw [bind_some]
          split <;> exact stops _ _
      · exact stops _ _

/-! ## The fee and the placement -/

/-- Room for every script of the outputs, twice over, and a multiple of 2^32. -/
def wideGap (vout : List CTxOut) : Nat :=
  2 ^ 32 * (vout.map fun txout => 2 * txout.scriptPubKey.length).sum

theorem le_wideGap (vout : List CTxOut) :
    ∀ txout ∈ vout, 2 * txout.scriptPubKey.length ≤ wideGap vout := by
  intro txout member
  have one : 2 * txout.scriptPubKey.length ≤
      (vout.map fun txout => 2 * txout.scriptPubKey.length).sum :=
    le_sum_of_mem (List.mem_map.mpr ⟨txout, member, rfl⟩)
  rw [wideGap]
  omega

/-- A cut-off second instruction is read past the copy when the copies lie at the bottom of
memory. -/
theorem complete_of_fee (vout : List CTxOut)
    (inside : ∀ layout : Layout vout, (getOpRetFeeAt layout).isSome = true)
    (txout : CTxOut) (member : txout ∈ vout) (rest : CScript)
    (shape : txout.scriptPubKey = opReturn :: rest) : (getOp rest).isSome = true := by
  by_contra cut
  obtain ⟨cursor, early, overrun⟩ := getOp2_overrun (by simpa using cut)
  have short := le_wideGap vout
  let layout := spreadLayout (cursor + (2 ^ 32 - 1)) 0 vout short (Or.inl rfl)
  have known : txout ∈ layout.outs.map PlacedOut.txout := layout.outputs.symm ▸ member
  obtain ⟨out, placed, rfl⟩ := List.mem_map.mp known
  obtain ⟨charged, _, size, j, _, _, finish⟩ := mem_spread _ _ vout short 0 out placed
  have ending : out.originalBuffer.finish =
      wideGap vout * (j + 1) + (cursor + (2 ^ 32 - 1)) := finish
  have buffer : out.chargedBuffer = ⟨0, opReturn :: rest⟩ := by
    rw [PlacedOut.chargedBuffer, charged, shape]
  have leaves : getOp2 (out.chargedBuffer :: layout.outs.map PlacedOut.originalBuffer)
      out.originalBuffer.finish (out.charged + 1) = none := by
    rw [buffer, charged]
    apply overrun
    · intro other live
      obtain ⟨placedOther, known, rfl⟩ := List.mem_map.mp live
      obtain ⟨_, _, fits, i, _, _, last⟩ := mem_spread _ _ vout short 0 placedOther known
      have first : wideGap vout ≤ wideGap vout * (i + 1) :=
        Nat.le_mul_of_pos_right _ (Nat.succ_pos i)
      rw [shape, length_cons] at size
      simp only [Buffer.Holds, PlacedOut.originalBuffer]
      omega
    · omega
    · rw [ending, wideGap, room, Nat.mul_assoc]
      generalize (vout.map fun txout => 2 * txout.scriptPubKey.length).sum * (j + 1) = multiple
      omega
  have stops := inside layout
  simp only [getOpRetFeeAt, countFree_eq, bind_some] at stops
  rw [chargeOuts_none _ _ out placed (by rw [isOpReturn_iff]; exact ⟨rest, shape⟩) leaves] at stops
  cases stops

theorem claimless_of_fee (vout : List CTxOut) (value : ∀ layout : Layout vout,
      getOpRetFeeAt layout = some (opRetFeePerChar * chargedSize (granted vout) vout 0))
    (claims : ∃ txout ∈ vout, isOpReturn txout.scriptPubKey = true ∧
      carriesKey txout.scriptPubKey = true) : granted vout = 0 := by
  by_contra some
  have short := le_wideGap vout
  let layout := spreadLayout 0 (wideGap vout * (vout.length + 1)) vout short (Or.inr le_rfl)
  have above : ∀ out ∈ layout.outs, out.originalBuffer.finish ≤ out.charged + 1 := by
    intro out placed
    obtain ⟨charged, _, _, j, _, upper, finish⟩ := mem_spread _ _ vout short 0 out placed
    have last : wideGap vout * (j + 1) ≤ wideGap vout * (vout.length + 1) :=
      Nat.mul_le_mul_left _ (by omega)
    simp only [PlacedOut.originalBuffer, Buffer.finish]
    omega
  have everything := value layout
  simp only [getOpRetFeeAt, countFree_eq, bind_some] at everything
  rw [chargeOuts_above _ _ above, layout.outputs, zero_add, Option.some.injEq] at everything
  have less := chargedSize_lt (granted vout) 0 (Nat.pos_of_ne_zero some) vout claims
  simp only [opRetFeePerChar] at everything
  omega

theorem getMinFeeAt_eq {layout : Layout tx.vout} {nBlockSize : UInt32} {mode : GetMinFeeMode}
    {nBytes : UInt32} (fee : getOpRetFeeAt layout = some (getOpRetFee tx)) :
    getMinFeeAt tx layout nBlockSize mode nBytes = some (getMinFee tx nBlockSize mode nBytes) := by
  unfold getMinFeeAt getMinFee
  simp only [fee]
  cases raiseForBlock nBlockSize (nBlockSize + nBytes) _ with
  | none => rfl
  | some nMinFee =>
    by_cases service : 2 ≤ tx.nVersion
    · simp only [if_pos service, map_some]
    · simp only [if_neg service]

/-- The fee is the charged size on every node, and every read stays inside the script
buffers, exactly for the transactions of `FixedFee`. -/
theorem fee_placement_independent_iff (tx : CTransaction) :
    (∀ layout : Layout tx.vout,
      getOpRetFeeAt layout =
        some (opRetFeePerChar * chargedSize (granted tx.vout) tx.vout 0) ∧
      ∀ nBlockSize mode nBytes, getMinFeeAt tx layout nBlockSize mode nBytes =
        some (getMinFee tx nBlockSize mode nBytes)) ↔
    FixedFee tx.vout := by
  constructor
  · intro independent txout member starts
    obtain ⟨rest, shape⟩ := isOpReturn_iff.mp starts
    refine ⟨?_, fun carries => ?_⟩
    · rw [shape]
      exact complete_of_fee tx.vout (fun layout => by rw [(independent layout).1]; rfl)
        txout member rest shape
    · exact claimless_of_fee tx.vout (fun layout => (independent layout).1)
        ⟨txout, member, starts, carries⟩
  · intro fixed layout
    have fee := getOpRetFeeAt_fixed fixed layout
    exact ⟨by rw [fee, getOpRetFee_eq], fun nBlockSize mode nBytes =>
      getMinFeeAt_eq fee⟩

/-! ### One transaction, two nodes

An output with a 33-byte push behind `OP_RETURN` and an ordinary output, which makes the
first one free. -/

def secretTx : CTransaction where
  nVersion := 2
  nTime := 0
  vin := [⟨⟨1, 0⟩, [0x51, 0x51], 0xffffffff⟩]
  vout := [⟨0, opReturn :: 33 :: List.replicate 33 2⟩, ⟨100000000, [0x51]⟩]
  nLockTime := 0
  strTxComment := []
  nProdTypeID := 0

def copiesBelow : Layout secretTx.vout where
  outs := [⟨secretTx.vout[0], 1000, 100, 100⟩, ⟨secretTx.vout[1], 1100, 100, 100⟩]
  outputs := rfl
  originalsApart := by decide
  copiesApart := by decide

def copiesAbove : Layout secretTx.vout where
  outs := [⟨secretTx.vout[0], 1000, 2000, 2000⟩, ⟨secretTx.vout[1], 1100, 2000, 2000⟩]
  outputs := rfl
  originalsApart := by decide
  copiesApart := by decide

theorem secretTx_has_two_fees :
    checkTransaction secretTx = true ∧
    opRetFeePerChar * chargedSize (granted secretTx.vout) secretTx.vout 0 = 0 ∧
    getMinFeeAt secretTx copiesBelow 1 .block 0 = some 62500 ∧
    getMinFeeAt secretTx copiesAbove 1 .block 0 = some 587500 := by
  decide +kernel

end SynergyData.OpRetFee
