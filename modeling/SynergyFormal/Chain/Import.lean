import SynergyFormal.Ledger.Positions

/-!
# Importing a block file

`LoadExternalBlockFile` (`main.cpp`) on what `WriteToDisk` wrote.  The file is shorter than
2^31 bytes, so positions do not wrap around.
-/

set_option autoImplicit false

namespace SynergyChain.Import

open SynergyLib SynergyData
open List Wire Stream Transaction CheckTransaction Block Codec SynergyLedger.Positions

/-- A call of `ProcessBlock` and what it returned. -/
abbrev Call := CBlock × Bool

/-- What depends on the calls so far. -/
structure Node where
  processBlock : List Call → CBlock → Bool
  adjustedTime : List Call → UInt32
  nBestHeight : List Call → ℕ

section Loops
variable (pchMessageStart : UInt32) (file : Bytes) (node : Node)

/-- The inner loop: the position after the next message start.  `some none` is
`(unsigned int)-1`, and `none` says that the fuel is used up. -/
def findStart : ℕ → ℕ → Option (Option ℕ)
  | 0, _ => none
  | fuel + 1, nPos =>
    let pchData := (file.drop nPos).take 65536
    if pchData.length ≤ 8 then some none
    else
      match (pchData.take (pchData.length - 3)).findIdx?
        (some · = (writeUint32 pchMessageStart).head?) with
      | some nFind =>
        if (pchData.drop nFind).take 4 = writeUint32 pchMessageStart then
          some (some (nPos + nFind + 4))
        else findStart fuel (nPos + nFind + 1)
      | none => findStart fuel (nPos + 65533)

def loadLoop : ℕ → ℕ → List Call → Option (List Call)
  | 0, _, _ => none
  | fuel + 1, nPos, calls =>
    match findStart pchMessageStart file (file.length + 1) nPos with
    | none => none
    | some none => some calls
    | some (some nPos) =>
      match (readUint32 autoFile).run ⟨file.drop nPos⟩ with
      -- an exception is caught outside of the loop
      | none => some calls
      | some (nSize, blkdat) =>
        if 0 < nSize.toNat ∧ nSize.toNat ≤ maxBlockSize then
          match (unserializeBlock autoFile (nullTx (node.adjustedTime calls)
            (node.nBestHeight calls)) serDisk).run blkdat with
          | none => some calls
          | some (block, _) =>
            let next := calls ++ [(block, node.processBlock calls block)]
            if node.processBlock calls block then loadLoop fuel (nPos + 4 + nSize.toNat) next
            else loadLoop fuel nPos next
        else loadLoop fuel nPos calls

/-- The calls of `ProcessBlock`; the function returns whether one of them returned true. -/
def loadExternalBlockFile : Option (List Call) :=
  loadLoop pchMessageStart file node (file.length + 1) 0 []

end Loops

section Frames
variable (magic : UInt32)

/-- Frames as `WriteToDisk` appends them. -/
def blockFile (blocks : List CBlock) : Bytes :=
  blocks.flatMap fun b => (writeToDisk magic [] b).1

/-- What follows the message start of a block. -/
def payload (b : CBlock) : Bytes :=
  writeUint32 (getSerializeSizeBlock serDisk b) ++ serializeBlock b

/-- The message start does not begin inside `gap`, where `rest` follows. -/
abbrev Unmarked (gap rest : Bytes) : Prop :=
  ∀ i < gap.length, ¬writeUint32 magic <+: (gap ++ rest).drop i

/-- A block that is refused hides no message start. -/
def Clear (node : Node) : List Call → List CBlock → Prop
  | _, [] => True
  | calls, b :: blocks =>
    (node.processBlock calls b = true ∨ Unmarked magic (payload b) (blockFile magic blocks)) ∧
    Clear node (calls ++ [(b, node.processBlock calls b)]) blocks

variable {magic} {file gap rest : Bytes} {nPos fuel : ℕ}

/-- The scan passes over an unmarked gap, one `memchr` or one buffer at a time. -/
theorem findStart_spec {target : Option ℕ} (shape : file.drop nPos = gap ++ rest)
    (unmarked : Unmarked magic gap rest)
    (next : rest = [] ∧ target = none ∨ writeUint32 magic <+: rest ∧ 8 < rest.length ∧
      target = some (nPos + gap.length + 4)) (enough : gap.length < fuel) :
    findStart magic file fuel nPos = some target := by
  induction fuel generalizing nPos gap with
  | zero => omega
  | succ fuel ih =>
    set start := writeUint32 magic with start_def
    have width : start.length = 4 := leBytes_length 4 _
    set data := (gap ++ rest).take 65536 with data_def
    have size : data.length = min 65536 (gap.length + rest.length) := by
      rw [data_def, length_take, length_append]
    have advance (k : ℕ) (inside : k < gap.length ∨ rest = []) (long : 8 < data.length) :
        findStart magic file fuel (nPos + (k + 1)) = some target := by
      have dropped : (gap ++ rest).drop (k + 1) = gap.drop (k + 1) ++ rest := by
        rcases inside with inside | rfl
        · exact drop_append_of_le_length inside
        · simp
      have onward : file.drop (nPos + (k + 1)) = gap.drop (k + 1) ++ rest := by
        rw [← drop_drop, shape, dropped]
      apply ih onward
      · intro i bound
        rw [length_drop] at bound
        rw [← dropped, drop_drop]
        exact unmarked (k + 1 + i) (by omega)
      · refine next.imp id fun ⟨marked, more, here⟩ => ⟨marked, more, here.trans ?_⟩
        have inside := inside.resolve_right (by rintro rfl; simp at more)
        exact congrArg some (by rw [length_drop]; omega)
      · rw [length_drop]
        rcases inside with inside | rfl
        · omega
        · rw [length_nil] at size
          omega
    have mark {i : ℕ} (bound : i < data.length - 3) :
        (data.drop i).take 4 = start ↔ start <+: (gap ++ rest).drop i := by
      rw [data_def, drop_take, take_take, prefix_iff_eq_take, width, eq_comm, Nat.min_eq_left]
      omega
    have head (bound : gap.length < data.length - 3) (marked : start <+: rest) :
        (data.take (data.length - 3))[gap.length]? = start.head? := by
      obtain ⟨tail, rfl⟩ := marked
      rw [getElem?_take_of_lt bound, data_def, getElem?_take_of_lt (by omega),
        getElem?_append_right le_rfl, Nat.sub_self, getElem?_append_left (by omega),
        head?_eq_getElem?]
    rw [findStart, shape, ← data_def]
    split_ifs with short
    · rcases next with ⟨_, none⟩ | ⟨_, more, _⟩
      · rw [none]
      · omega
    split
    case h_1 nFind found =>
      obtain ⟨bound, _, before⟩ := findIdx?_eq_some_iff_getElem.mp found
      rw [length_take] at bound
      by_cases inside : nFind < gap.length
      · rw [if_neg fun same => unmarked nFind inside ((mark (by omega)).mp same)]
        exact advance nFind (Or.inl inside) (by omega)
      · obtain ⟨marked, more, here⟩ := next.resolve_left fun ⟨empty, _⟩ => by
          rw [empty, length_nil] at size
          omega
        have reach : nFind ≤ gap.length := by
          by_contra beyond
          have there := head (by omega) marked
          rw [getElem?_eq_getElem (by rw [length_take]; omega)] at there
          exact before gap.length (by omega) (decide_eq_true there)
        obtain rfl : nFind = gap.length := by omega
        rw [if_pos ((mark (by omega)).mpr (by rwa [drop_left])), here]
    case h_2 none =>
      refine advance 65532 ?_ (by omega)
      rcases next with ⟨empty, _⟩ | ⟨marked, more, _⟩
      · exact Or.inr empty
      · by_contra before
        obtain ⟨first, there⟩ : ∃ first, start.head? = some first :=
          ⟨_, head?_eq_some_head (ne_nil_of_length_pos (by omega))⟩
        have miss := findIdx?_eq_none_iff.mp none first
          (mem_of_getElem? ((head (by omega) marked).trans there))
        exact of_decide_eq_false miss there.symm

theorem blockFile_cons (b : CBlock) (blocks : List CBlock) :
    blockFile magic (b :: blocks) = writeUint32 magic ++ (payload b ++ blockFile magic blocks) := by
  have whole : serializeBlockAs serDisk b = serializeBlock b := rfl
  simp [blockFile, writeToDisk, payload, whole]

/-- A block of at most `MAX_BLOCK_SIZE` bytes, each of its fields one that can be read back. -/
def Framed (b : CBlock) : Prop := EncodableBlock b ∧ (serializeBlock b).length ≤ maxBlockSize

theorem short (shape : file.drop nPos = gap ++ rest) : gap.length < file.length + 1 := by
  have lengths := congrArg length shape
  rw [length_drop, length_append] at lengths
  omega

theorem loadLoop_frames {node : Node} {blocks : List CBlock} {calls : List Call}
    (framed : ∀ b ∈ blocks, Framed b) (clear : Clear magic node calls blocks)
    (shape : file.drop nPos = gap ++ blockFile magic blocks)
    (unmarked : Unmarked magic gap (blockFile magic blocks))
    (enough : (blockFile magic blocks).length < fuel) :
    ∃ last, loadLoop magic file node fuel nPos calls = some (calls ++ last) ∧
      last.map Prod.fst = blocks := by
  induction blocks generalizing fuel nPos gap calls with
  | nil =>
    obtain ⟨fuel, rfl⟩ := Nat.exists_eq_succ_of_ne_zero enough.ne'
    have found : findStart magic file (file.length + 1) nPos = some none :=
      findStart_spec shape unmarked (Or.inl ⟨rfl, rfl⟩) (short shape)
    exact ⟨[], by rw [loadLoop, found, append_nil], rfl⟩
  | cons b blocks ih =>
    obtain ⟨fuel, rfl⟩ := Nat.exists_eq_succ_of_ne_zero (Nat.ne_zero_of_lt enough)
    obtain ⟨⟨encodable, limit⟩, others⟩ := forall_mem_cons.mp framed
    have size : (getSerializeSizeBlock serDisk b).toNat = (serializeBlock b).length := by
      rw [getSerializeSizeBlock_eq]
      exact toNat_size (limit.trans_lt (by decide))
    have frame : (blockFile magic (b :: blocks)).length =
        8 + (serializeBlock b).length + (blockFile magic blocks).length := by
      rw [blockFile_cons]
      simp only [payload, writeUint32, length_append, leBytes_length]
      omega
    have header : 80 ≤ (serializeBlock b).length := by
      simp [serializeBlock, serializeHeader, writeUint256, writeUint32]
      omega
    have found : findStart magic file (file.length + 1) nPos =
        some (some (nPos + gap.length + 4)) := by
      have marked : writeUint32 magic <+: blockFile magic (b :: blocks) :=
        ⟨_, (blockFile_cons b blocks).symm⟩
      exact findStart_spec shape unmarked (Or.inr ⟨marked, by omega, rfl⟩) (short shape)
    set start := nPos + gap.length + 4
    have here : file.drop start = payload b ++ blockFile magic blocks := by
      rw [← drop_drop, ← drop_drop, shape, drop_left, blockFile_cons]
      exact drop_left' (leBytes_length 4 _)
    obtain ⟨⟨body⟩, sizeRun, follows⟩ := reads_readUint32 autoFile_delivers ⟨file.drop start⟩ 4
      (serializeBlock b ++ blockFile magic blocks) (here.trans (append_assoc _ _ _))
      (leBytes_length 4 _).le
    have blank : (nullTx (node.adjustedTime calls) (node.nBestHeight calls)).strTxComment = [] :=
      rfl
    obtain ⟨_, blockRun, _⟩ := reads_unserializeBlock autoFile_delivers blank rfl
      (show headerOnly serDisk = false by decide) encodable ⟨body⟩
      (serializeBlock b).length _ follows le_rfl
    obtain ⟨verdict, clear⟩ := clear
    have fewer : (blockFile magic blocks).length < fuel := by omega
    rw [loadLoop, found]
    simp only [sizeRun, blockRun, size]
    rw [if_pos ⟨by omega, limit⟩]
    cases answer : node.processBlock calls b with
    | true =>
      rw [answer] at clear
      have past : file.drop (start + 4 + (serializeBlock b).length) =
          [] ++ blockFile magic blocks := by
        rw [Nat.add_assoc, ← drop_drop, here]
        exact drop_left' (by simp [payload, writeUint32])
      obtain ⟨last, run, same⟩ := ih others clear past (fun i bound => absurd bound i.not_lt_zero)
        fewer
      exact ⟨(b, true) :: last, by simpa using run, by simp [same]⟩
    | false =>
      rw [answer] at clear verdict
      obtain ⟨last, run, same⟩ := ih others clear here (verdict.resolve_left (by simp)) fewer
      exact ⟨(b, false) :: last, by simpa using run, by simp [same]⟩

/-- Every framed block is offered, in the order of the file, unless a refused block hides a
message start. -/
theorem import_offers_all (magic : UInt32) (node : Node) (blocks : List CBlock)
    (framed : ∀ b ∈ blocks, Framed b) (clear : Clear magic node [] blocks) :
    ∃ calls, loadExternalBlockFile magic (blockFile magic blocks) node =
      some calls ∧ calls.map Prod.fst = blocks := by
  have whole : (blockFile magic blocks).drop 0 = [] ++ blockFile magic blocks := rfl
  exact loadLoop_frames framed clear whole (fun i bound => absurd bound i.not_lt_zero)
    (Nat.lt_succ_self _)

end Frames

def mainStart : UInt32 := 0xd9e5e3f1

/-- Refuses every block. -/
def refusing : Node := ⟨fun _ _ => false, fun _ => 1440000000, fun _ => 0⟩

def plainBlock (vchBlockSig : Bytes) : CBlock :=
  ⟨6, 1, 2, 1440000000, 0x1d00ffff, 9, [], vchBlockSig⟩

theorem import_offers_all_refused : ∃ calls,
    loadExternalBlockFile mainStart (blockFile mainStart [plainBlock [], plainBlock [1]]) refusing =
      some calls ∧ calls.map Prod.fst = [plainBlock [], plainBlock [1]] := by
  apply import_offers_all mainStart refusing
  · intro b member
    rcases mem_pair.mp member with rfl | rfl
    · exact ⟨⟨by decide, nofun, by decide⟩, by decide +kernel⟩
    · exact ⟨⟨by decide, nofun, by decide⟩, by decide +kernel⟩
  · exact ⟨Or.inr (by decide +kernel), Or.inr (by decide +kernel), trivial⟩

/-- A signature that reads like the start of a frame ends the import. -/
theorem import_stops_at_hidden_frame :
    loadExternalBlockFile mainStart
      (blockFile mainStart [plainBlock [0xf1, 0xe3, 0xe5, 0xd9, 1, 0, 0, 0], plainBlock []])
      refusing = some [(plainBlock [0xf1, 0xe3, 0xe5, 0xd9, 1, 0, 0, 0], false)] := by
  decide +kernel

end SynergyChain.Import
