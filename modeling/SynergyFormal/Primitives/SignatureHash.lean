import SynergyFormal.Primitives.Block

/-!
# What a signature commits to

`SignatureHash` of `script.cpp`.  `signedTx` is the copy of the transaction that is
left after the blanking rules of the hash type, and `signaturePreimage` the bytes that
are hashed; both are `none` where the source returns the constant 1 instead of a hash.

The commitment is read off `serialize_inj`; the freedoms are equalities of `signedTx`,
so the bytes do not move.
-/

set_option autoImplicit false

namespace SynergyData.SignatureHash

open SynergyLib.Wire Script Transaction Block

/-! ## FindAndDelete -/

/-- The two loops from `pc` on: what is left of the script there, and `nFound`.  A malformed
push ends the search. -/
def deleteLoop (b : CScript) : Nat → CScript → Nat → CScript × Nat
  | 0, pc, nFound => (pc, nFound)
  | fuel + 1, pc, nFound =>
    if b.isPrefixOf pc then deleteLoop b fuel (pc.drop b.length) (nFound + 1)
    else
      match getOp2 pc with
      | none => (pc, nFound)
      | some (_, _, next) =>
        let later := deleteLoop b fuel next nFound
        (pc.take (pc.length - next.length) ++ later.1, later.2)

def findAndDeleteCount (script b : CScript) : CScript × Nat :=
  if b = [] then (script, 0) else deleteLoop b script.length script 0

def findAndDelete (script b : CScript) : CScript := (findAndDeleteCount script b).1

variable {b scriptCode s₂ s₁ : CScript} {fuel nIn i i₂ i₁ : Nat} {vin vin' : List CTxIn}
  {vout' : List CTxOut} {txTmp : CTransaction} {txin : CTxIn}

theorem deleteLoop_length :
    ∀ (pc : CScript) (nFound : Nat), (deleteLoop b fuel pc nFound).1.length ≤ pc.length := by
  induction fuel with
  | zero => intro pc nFound; exact le_rfl
  | succ fuel ih =>
    intro pc nFound
    rw [deleteLoop]
    split
    · exact (ih _ _).trans (by rw [List.length_drop]; omega)
    · cases read : getOp2 pc with
      | none => exact le_rfl
      | some triple =>
        obtain ⟨opcode, data, next⟩ := triple
        have shorter := getOp2_shorter read
        have rest := ih next nFound
        simp only [List.length_append, List.length_take]
        omega

/-- Every pass takes something off, so the fuel is never the reason to stop. -/
theorem deleteLoop_fuel (pattern : b ≠ []) {more : Nat} : ∀ (pc : CScript) (nFound : Nat),
    pc.length ≤ fuel → deleteLoop b (fuel + more) pc nFound = deleteLoop b fuel pc nFound := by
  have length := List.length_pos_iff.mpr pattern
  induction fuel with
  | zero =>
    intro pc nFound enough
    obtain rfl : pc = [] := List.eq_nil_of_length_eq_zero (by omega)
    cases more with
    | zero => rfl
    | succ more => simp [deleteLoop, getOp2, List.isPrefixOf_iff_prefix, pattern]
  | succ fuel ih =>
    intro pc nFound enough
    rw [show fuel + 1 + more = (fuel + more) + 1 by omega, deleteLoop, deleteLoop]
    split
    · exact ih _ _ (by rw [List.length_drop]; omega)
    · cases read : getOp2 pc with
      | none => rfl
      | some triple =>
        obtain ⟨opcode, data, next⟩ := triple
        have shorter := getOp2_shorter read
        simp only [ih next nFound (by omega)]

theorem findAndDelete_length {script : CScript} :
    (findAndDelete script b).length ≤ script.length := by
  rw [findAndDelete, findAndDeleteCount]
  split
  · exact le_rfl
  · exact deleteLoop_length script 0

/-! ## SignatureHash -/

def opCodeSeparator : UInt8 := 0xab

def sigHashAll : Int32 := 1
def sigHashNone : Int32 := 2
def sigHashSingle : Int32 := 3
def sigHashAnyoneCanPay : Int32 := 0x80

def withoutSeparators (scriptCode : CScript) : CScript := findAndDelete scriptCode [opCodeSeparator]

def blankInput (txin : CTxIn) : CTxIn := { txin with scriptSig := [] }

/-- All signatures are blanked out, and the script stands in the place of the one made. -/
def signedInputs (scriptCode : CScript) (vin : List CTxIn) (nIn : Nat) : List CTxIn :=
  (vin.map blankInput).modify nIn fun txin => { txin with scriptSig := scriptCode }

/-- Let the others update at will. -/
def freeSequences (vin : List CTxIn) (nIn : Nat) : List CTxIn :=
  vin.mapIdx fun i txin => if i = nIn then txin else { txin with nSequence := 0 }

def nullTxOut : CTxOut := ⟨-1, []⟩

def blankOutputs (txTmp : CTransaction) (nIn : Nat) (nHashType : Int32) : Option CTransaction :=
  if nHashType &&& 0x1f = sigHashNone then
    some { txTmp with vout := [], vin := freeSequences txTmp.vin nIn }
  else if nHashType &&& 0x1f = sigHashSingle then
    if txTmp.vout.length ≤ nIn then none
    else
      some { txTmp with
        vout := (txTmp.vout.take (nIn + 1)).mapIdx fun i txout =>
          if i < nIn then nullTxOut else txout
        vin := freeSequences txTmp.vin nIn }
  else some txTmp

def blankOtherInputs (txTmp : CTransaction) (nIn : Nat) (nHashType : Int32) : CTransaction :=
  if nHashType &&& sigHashAnyoneCanPay ≠ 0 then
    match txTmp.vin[nIn]? with
    | some txin => { txTmp with vin := (txTmp.vin.set 0 txin).take 1 }
    | none => txTmp
  else txTmp

def signedTx (scriptCode : CScript) (txTo : CTransaction) (nIn : Nat) (nHashType : Int32) :
    Option CTransaction :=
  if txTo.vin.length ≤ nIn then none
  else
    let txTmp := { txTo with vin := signedInputs (withoutSeparators scriptCode) txTo.vin nIn }
    (blankOutputs txTmp nIn nHashType).map fun txTmp => blankOtherInputs txTmp nIn nHashType

/-- The bytes that are hashed. -/
def signaturePreimage (scriptCode : CScript) (txTo : CTransaction) (nIn : Nat)
    (nHashType : Int32) : Option Bytes :=
  (signedTx scriptCode txTo nIn nHashType).map fun txTmp =>
    serialize txTmp ++ leBytes 4 nHashType.toBitVec.toNat

def signatureHash (env : Env) (scriptCode : CScript) (txTo : CTransaction) (nIn : Nat)
    (nHashType : Int32) : Uint256 :=
  match signaturePreimage scriptCode txTo nIn nHashType with
  | some bytes => env.hash bytes
  | none => 1

/-! ## The inputs of the copy -/

theorem signedInputs_getElem? : (signedInputs scriptCode vin nIn)[i]? =
      vin[i]?.map fun txin => { txin with scriptSig := if i = nIn then scriptCode else [] } := by
  rw [signedInputs, List.getElem?_modify, List.getElem?_map]
  cases vin[i]? with
  | none => simp
  | some txin =>
    by_cases here : nIn = i
    · simp [here, blankInput]
    · simp [here, Ne.symm here, blankInput]

theorem freeSequences_getElem? : (freeSequences vin nIn)[i]? =
      vin[i]?.map fun txin => if i = nIn then txin else { txin with nSequence := 0 } := by
  rw [freeSequences, List.getElem?_mapIdx]

@[simp] theorem signedInputs_length : (signedInputs scriptCode vin nIn).length = vin.length := by
  simp [signedInputs]

/-- What the copy keeps of an input. -/
def signedPart (txin : CTxIn) : COutPoint × UInt32 := (txin.prevout, txin.nSequence)

theorem signedInputs_signedPart :
    (signedInputs scriptCode vin nIn).map signedPart = vin.map signedPart := by
  refine List.ext_getElem? fun i => ?_
  rw [List.getElem?_map, signedInputs_getElem?, List.getElem?_map, Option.map_map]
  rfl

theorem signedInputs_congr (same : vin'.map signedPart = vin.map signedPart) :
    signedInputs scriptCode vin' nIn = signedInputs scriptCode vin nIn := by
  refine List.ext_getElem? fun i => ?_
  have part := congrArg (fun parts => parts[i]?) same
  simp only [List.getElem?_map] at part
  rw [signedInputs_getElem?, signedInputs_getElem?]
  cases first : vin'[i]? <;> cases second : vin[i]? <;> simp_all [signedPart]

/-- The index and the script can be recovered from the inputs, unless the script is
empty. -/
theorem signedInputs_inj {vin₁ vin₂ : List CTxIn} (present₁ : i₁ < vin₁.length)
    (present₂ : i₂ < vin₂.length) (same : signedInputs s₁ vin₁ i₁ = signedInputs s₂ vin₂ i₂) :
    s₁ = s₂ ∧ (s₁ ≠ [] → i₁ = i₂) := by
  have script : ∀ (s : CScript) (vin : List CTxIn) (nIn i : Nat) (present : i < vin.length),
      (signedInputs s vin nIn)[i]?.map CTxIn.scriptSig = some (if i = nIn then s else []) := by
    intro s vin nIn i present
    rw [signedInputs_getElem?, List.getElem?_eq_getElem present]
    rfl
  have lengths : vin₁.length = vin₂.length := by simpa using congrArg List.length same
  have at₁ := script s₁ vin₁ i₁ i₁ present₁
  have at₂ := script s₂ vin₂ i₂ i₂ present₂
  rw [same, script s₂ vin₂ i₂ i₁ (by omega)] at at₁
  rw [← same, script s₁ vin₁ i₁ i₂ (by omega)] at at₂
  by_cases index : i₁ = i₂ <;> simp_all

/-! ## The commitment -/

theorem signedTx_all {txTo : CTransaction} (present : nIn < txTo.vin.length) :
    signedTx scriptCode txTo nIn sigHashAll =
      some { txTo with vin := signedInputs (withoutSeparators scriptCode) txTo.vin nIn } := by
  have kind : ¬ sigHashAll &&& 0x1f = sigHashNone ∧ ¬ sigHashAll &&& 0x1f = sigHashSingle ∧
      ¬ sigHashAll &&& sigHashAnyoneCanPay ≠ 0 := by decide
  simp only [signedTx, if_neg (Nat.not_le.mpr present), blankOutputs, if_neg kind.1,
    if_neg kind.2.1, Option.map_some, blankOtherInputs, if_neg kind.2.2]

variable {tx : CTransaction} {nHashType : Int32}

theorem addressable_signedInputs (fits : Addressable tx)
    (scriptFits : scriptCode.length < 256 ^ 8) :
    Addressable { tx with vin := signedInputs scriptCode tx.vin nIn } := by
  refine ⟨⟨by simpa using fits.inputs.1, fun txin member => ?_⟩, fits.outputs, fits.comment⟩
  obtain ⟨i, found⟩ := List.mem_iff_getElem?.mp member
  rw [signedInputs_getElem?] at found
  obtain ⟨original, _, rfl⟩ := Option.map_eq_some_iff.mp found
  show (if i = nIn then scriptCode else []).length < 256 ^ 8
  split
  · exact scriptFits
  · decide

/-- The parts of two transactions that a signature over everything covers. -/
structure SameSigned (t₁ t₂ : CTransaction) : Prop where
  version : t₁.nVersion = t₂.nVersion
  time : t₁.nTime = t₂.nTime
  inputs : t₁.vin.map signedPart = t₂.vin.map signedPart
  outputs : t₁.vout = t₂.vout
  lockTime : t₁.nLockTime = t₂.nLockTime
  extras : 2 ≤ t₁.nVersion → t₁.strTxComment = t₂.strTxComment ∧ t₁.nProdTypeID = t₂.nProdTypeID

theorem signaturePreimage_all_inj {t₁ t₂ : CTransaction} (fits₁ : Addressable t₁)
    (fits₂ : Addressable t₂) (short₁ : s₁.length < 256 ^ 8) (short₂ : s₂.length < 256 ^ 8)
    (present₁ : i₁ < t₁.vin.length) (present₂ : i₂ < t₂.vin.length)
    (same : signaturePreimage s₁ t₁ i₁ sigHashAll = signaturePreimage s₂ t₂ i₂ sigHashAll) :
    SameSigned t₁ t₂ ∧ withoutSeparators s₁ = withoutSeparators s₂ ∧
      (withoutSeparators s₁ ≠ [] → i₁ = i₂) := by
  rw [signaturePreimage, signedTx_all present₁, signaturePreimage,
    signedTx_all present₂, Option.map_some, Option.map_some, Option.some.injEq] at same
  have bytes := List.append_cancel_right same
  obtain ⟨versions, times, vins, vouts, lockTimes, late⟩ := serialize_inj
    (addressable_signedInputs fits₁ (findAndDelete_length.trans_lt short₁))
    (addressable_signedInputs fits₂ (findAndDelete_length.trans_lt short₂)) bytes
  have parts := congrArg (List.map signedPart) vins
  rw [signedInputs_signedPart, signedInputs_signedPart] at parts
  exact ⟨⟨versions, times, parts, vouts, lockTimes, late⟩, signedInputs_inj present₁ present₂ vins⟩

/-! ## The freedoms -/

theorem signaturePreimage_congr {tx' : CTransaction}
    (same : signedTx scriptCode tx' nIn nHashType = signedTx scriptCode tx nIn nHashType) :
    signaturePreimage scriptCode tx' nIn nHashType =
      signaturePreimage scriptCode tx nIn nHashType := by
  rw [signaturePreimage, signaturePreimage, same]

theorem signedTx_scriptSigs (same : vin'.map signedPart = tx.vin.map signedPart) :
    signedTx scriptCode { tx with vin := vin' } nIn nHashType =
      signedTx scriptCode tx nIn nHashType := by
  have lengths : vin'.length = tx.vin.length := by simpa using congrArg List.length same
  simp only [signedTx, lengths, signedInputs_congr same]

/-- Inputs that may differ in their signatures and, except for one, in their sequence
numbers. -/
structure SameOutpoints (vin' vin : List CTxIn) (nIn : Nat) : Prop where
  prevouts : vin'.map CTxIn.prevout = vin.map CTxIn.prevout
  sequence : vin'[nIn]?.map CTxIn.nSequence = vin[nIn]?.map CTxIn.nSequence

theorem SameOutpoints.length (same : SameOutpoints vin' vin nIn) : vin'.length = vin.length := by
  simpa using congrArg List.length same.prevouts

theorem freeSequences_congr (same : SameOutpoints vin' vin nIn) :
    freeSequences (signedInputs scriptCode vin' nIn) nIn =
      freeSequences (signedInputs scriptCode vin nIn) nIn := by
  refine List.ext_getElem? fun i => ?_
  have prevout := congrArg (fun outpoints => outpoints[i]?) same.prevouts
  simp only [List.getElem?_map] at prevout
  have sequence := same.sequence
  rw [freeSequences_getElem?, signedInputs_getElem?, freeSequences_getElem?, signedInputs_getElem?]
  by_cases here : i = nIn
  · subst here
    cases first : vin'[i]? <;> cases second : vin[i]? <;> simp_all
  · cases first : vin'[i]? <;> cases second : vin[i]? <;> simp_all

theorem signedTx_none (kind : nHashType &&& 0x1f = sigHashNone)
    (same : SameOutpoints vin' tx.vin nIn) :
    signedTx scriptCode { tx with vin := vin', vout := vout' } nIn nHashType =
      signedTx scriptCode tx nIn nHashType := by
  simp only [signedTx, same.length, blankOutputs, if_pos kind, freeSequences_congr same]

theorem singleOutput_congr {vout : List CTxOut} (present' : nIn < vout'.length)
    (present : nIn < vout.length) (same : vout'[nIn]? = vout[nIn]?) :
    (vout'.take (nIn + 1)).mapIdx (fun i txout => if i < nIn then nullTxOut else txout) =
      (vout.take (nIn + 1)).mapIdx fun i txout => if i < nIn then nullTxOut else txout := by
  refine List.ext_getElem? fun i => ?_
  rw [List.getElem?_mapIdx, List.getElem?_mapIdx, List.getElem?_take, List.getElem?_take]
  rcases Nat.lt_trichotomy i nIn with below | rfl | above
  · rw [if_pos (by omega), if_pos (by omega), List.getElem?_eq_getElem (by omega),
      List.getElem?_eq_getElem (by omega)]
    simp [below]
  · simp [same]
  · rw [if_neg (by omega), if_neg (by omega)]

theorem signedTx_single (kind : nHashType &&& 0x1f = sigHashSingle)
    (same : SameOutpoints vin' tx.vin nIn) (present' : nIn < vout'.length)
    (present : nIn < tx.vout.length) (output : vout'[nIn]? = tx.vout[nIn]?) :
    signedTx scriptCode { tx with vin := vin', vout := vout' } nIn nHashType =
      signedTx scriptCode tx nIn nHashType := by
  have notNone : ¬ nHashType &&& 0x1f = sigHashNone := by rw [kind]; decide
  simp only [signedTx, same.length, blankOutputs, if_neg notNone, if_pos kind,
    if_neg (Nat.not_le.mpr present'), if_neg (Nat.not_le.mpr present),
    freeSequences_congr same,
    singleOutput_congr present' present output]

theorem blankOutputs_replace {last : List CTxIn} :
    (blankOutputs { txTmp with vin := vin' } nIn nHashType).map
        (fun tx => { tx with vin := last }) =
      (blankOutputs txTmp nIn nHashType).map fun tx => { tx with vin := last } := by
  unfold blankOutputs
  split_ifs <;> rfl

theorem blankOutputs_getElem? (success : blankOutputs txTmp nIn nHashType = some tx) :
    tx.vin[nIn]? = txTmp.vin[nIn]? := by
  have kept : (freeSequences txTmp.vin nIn)[nIn]? = txTmp.vin[nIn]? := by
    rw [freeSequences_getElem?]
    simp
  unfold blankOutputs at success
  split_ifs at success <;> cases success <;> first | exact kept | rfl

section Anyone
variable (kind : nHashType &&& sigHashAnyoneCanPay ≠ 0)
include kind

theorem blankOtherInputs_eq (found : tx.vin[nIn]? = some txin) :
    blankOtherInputs tx nIn nHashType = { tx with vin := [txin] } := by
  have first : (tx.vin.set 0 txin).take 1 = [txin] := by
    cases shape : tx.vin with
    | nil => simp [shape] at found
    | cons head tail => simp
  simp only [blankOtherInputs, if_pos kind, found, first]

theorem signedTx_anyone (found : tx.vin[nIn]? = some txin) :
    signedTx scriptCode tx nIn nHashType =
      (blankOutputs tx nIn nHashType).map fun copy =>
        { copy with vin := [{ txin with scriptSig := withoutSeparators scriptCode }] } := by
  obtain ⟨present, _⟩ := List.getElem?_eq_some_iff.mp found
  rw [← blankOutputs_replace]
  simp only [signedTx, if_neg (Nat.not_le.mpr present)]
  refine Option.map_congr fun copy member => blankOtherInputs_eq kind ?_
  rw [blankOutputs_getElem? member, signedInputs_getElem?, found]
  simp

theorem signedTx_anyoneCanPay (present : nIn < tx.vin.length)
    (input : vin'[nIn]?.map signedPart = tx.vin[nIn]?.map signedPart) :
    signedTx scriptCode { tx with vin := vin' } nIn nHashType =
      signedTx scriptCode tx nIn nHashType := by
  obtain ⟨txin, found⟩ : ∃ txin, tx.vin[nIn]? = some txin :=
    ⟨_, List.getElem?_eq_getElem present⟩
  rw [found, Option.map_some] at input
  obtain ⟨txin', found', parts⟩ := Option.map_eq_some_iff.mp input
  have same : ({ txin' with scriptSig := withoutSeparators scriptCode } : CTxIn) =
      { txin with scriptSig := withoutSeparators scriptCode } := by
    obtain ⟨prevouts, sequences⟩ := Prod.mk.inj parts
    rw [prevouts, sequences]
  rw [signedTx_anyone kind found, signedTx_anyone kind found', same, blankOutputs_replace]

end Anyone

/-- A signature over everything commits to every field that is written, to the script
and to the input; each hash type is blind to what it is meant to leave free. -/
theorem signatureHash_commits :
    (∀ (s₁ s₂ : CScript) (t₁ t₂ : CTransaction) (i₁ i₂ : Nat), Addressable t₁ → Addressable t₂ →
      s₁.length < 256 ^ 8 → s₂.length < 256 ^ 8 → i₁ < t₁.vin.length → i₂ < t₂.vin.length →
      signaturePreimage s₁ t₁ i₁ sigHashAll = signaturePreimage s₂ t₂ i₂ sigHashAll →
      SameSigned t₁ t₂ ∧ withoutSeparators s₁ = withoutSeparators s₂ ∧
        (withoutSeparators s₁ ≠ [] → i₁ = i₂)) ∧
    ∀ (script : CScript) (tx : CTransaction) (nIn : Nat) (nHashType : Int32),
      nIn < tx.vin.length →
      (∀ vin', vin'.map signedPart = tx.vin.map signedPart →
        signaturePreimage script { tx with vin := vin' } nIn nHashType =
          signaturePreimage script tx nIn nHashType) ∧
      (nHashType &&& 0x1f = sigHashNone → ∀ vin' vout', SameOutpoints vin' tx.vin nIn →
        signaturePreimage script { tx with vin := vin', vout := vout' } nIn nHashType =
          signaturePreimage script tx nIn nHashType) ∧
      (nHashType &&& 0x1f = sigHashSingle → nIn < tx.vout.length → ∀ vin' vout',
        SameOutpoints vin' tx.vin nIn → vout'[nIn]? = tx.vout[nIn]? →
        signaturePreimage script { tx with vin := vin', vout := vout' } nIn nHashType =
          signaturePreimage script tx nIn nHashType) ∧
      (nHashType &&& sigHashAnyoneCanPay ≠ 0 → ∀ vin',
        vin'[nIn]?.map signedPart = tx.vin[nIn]?.map signedPart →
        signaturePreimage script { tx with vin := vin' } nIn nHashType =
          signaturePreimage script tx nIn nHashType) := by
  refine ⟨fun s₁ s₂ t₁ t₂ i₁ i₂ fits₁ fits₂ short₁ short₂ present₁ present₂ same =>
      signaturePreimage_all_inj fits₁ fits₂ short₁ short₂ present₁ present₂ same,
    fun script tx nIn nHashType present => ⟨?_, ?_, ?_, ?_⟩⟩
  · intro vin' same
    exact signaturePreimage_congr (signedTx_scriptSigs same)
  · intro kind vin' vout' same
    exact signaturePreimage_congr (signedTx_none kind same)
  · intro kind output vin' vout' same sameOutput
    have output' : nIn < vout'.length := by
      rw [List.getElem?_eq_getElem output] at sameOutput
      exact (List.getElem?_eq_some_iff.mp sameOutput).1
    exact signaturePreimage_congr (signedTx_single kind same output' output sameOutput)
  · intro kind vin' same
    exact signaturePreimage_congr (signedTx_anyoneCanPay kind present same)

def pairTx : CTransaction where
  nVersion := 2
  nTime := 1440000000
  vin := [⟨⟨7, 0⟩, [0x01, 0x30], 5⟩, ⟨⟨8, 1⟩, [0x01, 0x31], 6⟩]
  vout := [⟨10, [0x51]⟩, ⟨20, [0x52]⟩]
  nLockTime := 0
  strTxComment := [0x68]
  nProdTypeID := 0

theorem addressable_pairTx : Addressable pairTx :=
  ⟨by decide, by decide, by decide⟩

/-- Two inputs with one script are signed apart; without the outputs and with another
sequence number in the second input, a wildcard signature of the first stands. -/
theorem signatureHash_commits_pairTx :
    signaturePreimage [0x51] pairTx 0 sigHashAll ≠ signaturePreimage [0x51] pairTx 1 sigHashAll ∧
      signaturePreimage [0x51]
          { pairTx with vin := [⟨⟨7, 0⟩, [], 5⟩, ⟨⟨8, 1⟩, [], 0⟩], vout := [] } 0 sigHashNone =
        signaturePreimage [0x51] pairTx 0 sigHashNone := by
  obtain ⟨committed, free⟩ := signatureHash_commits
  refine ⟨fun same => ?_, ?_⟩
  · obtain ⟨_, _, index⟩ := committed [0x51] [0x51] pairTx pairTx 0 1 addressable_pairTx
      addressable_pairTx (by decide) (by decide) (by decide) (by decide) same
    exact absurd (index (by decide)) (by decide)
  · exact (free [0x51] pairTx 0 sigHashNone (by decide)).2.1 (by decide) _ _ ⟨by decide, by decide⟩

end SynergyData.SignatureHash
