import SynergyFormal.Primitives.Transaction

/-!
# Context-free transaction checks, values and fees

`CheckTransaction`, `GetValueOut`, `GetMinFee` and the signature-operation count of
a transaction.  `checkTransaction_spec` is the one place that opens the check; the
ledger uses the facts it lists.

Monetary sums are integers: every addend has passed `MoneyRange` before the next
addition, so the source's `int64_t` sums stay below 2^63.  A function that throws
`std::runtime_error` returns `none`.
-/

set_option autoImplicit false

namespace SynergyData.CheckTransaction

open List SynergyLib.Wire Script Transaction

/-! ## Values -/

def totalOut (outs : List CTxOut) : Int := (outs.map fun txout => txout.nValue.toInt).sum

def sumOutputs : List CTxOut → Int → Option Int
  | [], nValueOut => some nValueOut
  | txout :: rest, nValueOut =>
    if moneyRange txout.nValue.toInt = true ∧
        moneyRange (nValueOut + txout.nValue.toInt) = true then
      sumOutputs rest (nValueOut + txout.nValue.toInt)
    else none

def getValueOut (tx : CTransaction) : Option Int := sumOutputs tx.vout 0

variable {outs : List CTxOut} {tx : CTransaction} {A : Type}

theorem sumOutputs_spec :
    ∀ start total : Int, moneyRange start = true → sumOutputs outs start = some total →
      total = start + totalOut outs ∧ moneyRange total = true := by
  induction outs with
  | nil =>
    intro start total inRange success
    have same : start = total := by simpa [sumOutputs] using success
    subst same
    exact ⟨by simp [totalOut], inRange⟩
  | cons txout rest ih =>
    intro start total inRange success
    simp only [sumOutputs] at success
    split_ifs at success with ranges
    obtain ⟨totalExact, totalRange⟩ := ih _ total ranges.2 success
    refine ⟨?_, totalRange⟩
    rw [totalExact]
    simp only [totalOut, map_cons, sum_cons]
    omega

theorem getValueOut_spec {total : Int} (success : getValueOut tx = some total) :
    total = totalOut tx.vout ∧ 0 ≤ total ∧ total ≤ maxMoney := by
  obtain ⟨totalExact, totalRange⟩ := sumOutputs_spec 0 total (by decide) success
  exact ⟨by omega, moneyRange_iff.mp totalRange⟩

theorem sumOutputs_nonneg : ∀ start total : Int, sumOutputs outs start = some total →
      ∀ txout ∈ outs, 0 ≤ txout.nValue.toInt := by
  induction outs with
  | nil =>
    intro start total _ txout member
    cases member
  | cons first rest ih =>
    intro start total success txout member
    simp only [sumOutputs] at success
    split_ifs at success with ranges
    rcases mem_cons.mp member with rfl | later
    · exact (moneyRange_iff.mp ranges.1).1
    · exact ih _ total success txout later

/-! ## The check -/

def checkOutputs (tx : CTransaction) : List CTxOut → Int → Bool
  | [], _ => true
  | txout :: rest, nValueOut =>
    if txout.isEmpty = true ∧ isCoinBase tx = false ∧ isCoinStake tx = false then false
    else if txout.nValue.toInt < 0 then false
    else if maxMoney < txout.nValue.toInt then false
    else if moneyRange (nValueOut + txout.nValue.toInt) = false then false
    else checkOutputs tx rest (nValueOut + txout.nValue.toInt)

def noDuplicateInputs : List CTxIn → List COutPoint → Bool
  | [], _ => true
  | txin :: rest, seen =>
    if txin.prevout ∈ seen then false else noDuplicateInputs rest (txin.prevout :: seen)

def coinbaseScriptSize (tx : CTransaction) : Nat :=
  match tx.vin with
  | [] => 0
  | txin :: _ => txin.scriptSig.length

/-- A coinbase has a script of 2 to 100 bytes, any other transaction no null input. -/
def checkInputShape (tx : CTransaction) : Bool :=
  if isCoinBase tx then
    decide (2 ≤ coinbaseScriptSize tx) && decide (coinbaseScriptSize tx ≤ 100)
  else tx.vin.all fun txin => !txin.prevout.isNull

def checkComment (tx : CTransaction) : Bool :=
  if 2 ≤ tx.nVersion then decide (tx.strTxComment.length ≤ maxTxCommentLen)
  else decide (tx.strTxComment.length = 0)

def checkTransaction (tx : CTransaction) : Bool :=
  decide (tx.vin ≠ []) && decide (tx.vout ≠ []) && decide (serializeSize tx ≤ maxBlockSize) &&
    checkOutputs tx tx.vout 0 && noDuplicateInputs tx.vin [] && checkInputShape tx &&
    checkComment tx

theorem checkOutputs_sumOutputs : ∀ start : Int, checkOutputs tx outs start = true →
      ∃ total, sumOutputs outs start = some total := by
  induction outs with
  | nil => intro start _; exact ⟨start, rfl⟩
  | cons txout rest ih =>
    intro start success
    simp only [checkOutputs] at success
    split_ifs at success with userEmpty negative tooHigh outOfRange
    obtain ⟨total, rest⟩ := ih _ success
    refine ⟨total, ?_⟩
    have single : moneyRange txout.nValue.toInt = true := moneyRange_iff.mpr ⟨by omega, by omega⟩
    have running : moneyRange (start + txout.nValue.toInt) = true := by simpa using outOfRange
    simp only [sumOutputs, single, running, and_self, if_true, rest]

theorem noDuplicateInputs_spec {vin : List CTxIn} :
    ∀ seen : List COutPoint, noDuplicateInputs vin seen = true →
      (vin.map CTxIn.prevout).Nodup ∧ ∀ txin ∈ vin, txin.prevout ∉ seen := by
  induction vin with
  | nil => intro seen _; simp
  | cons txin rest ih =>
    intro seen success
    simp only [noDuplicateInputs] at success
    split_ifs at success with repeated
    obtain ⟨distinct, unseen⟩ := ih _ success
    constructor
    · refine nodup_cons.mpr ⟨?_, distinct⟩
      intro member
      obtain ⟨other, otherMember, same⟩ := List.mem_map.mp member
      exact unseen other otherMember (by rw [same]; exact mem_cons_self)
    · intro other member
      rcases mem_cons.mp member with rfl | member
      · exact repeated
      · exact fun inSeen => unseen other member (mem_cons_of_mem _ inSeen)

/-- What a transaction that passed the check is known to satisfy. -/
structure Checked (tx : CTransaction) : Prop where
  inputs : tx.vin ≠ []
  outputs : tx.vout ≠ []
  size : serializeSize tx ≤ maxBlockSize
  value : ∃ total, getValueOut tx = some total
  distinct : (tx.vin.map CTxIn.prevout).Nodup
  coinbase : isCoinBase tx = true → 2 ≤ coinbaseScriptSize tx ∧ coinbaseScriptSize tx ≤ 100
  ordinary : isCoinBase tx = false → ∀ txin ∈ tx.vin, txin.prevout.isNull = false
  comment : tx.strTxComment.length ≤ maxTxCommentLen

theorem checkTransaction_spec (success : checkTransaction tx = true) : Checked tx := by
  simp only [checkTransaction, Bool.and_eq_true, decide_eq_true_eq] at success
  obtain ⟨⟨⟨⟨⟨⟨inputs, outputs⟩, size⟩, values⟩, distinct⟩, shape⟩, comment⟩ := success
  refine ⟨inputs, outputs, size, checkOutputs_sumOutputs 0 values,
    (noDuplicateInputs_spec [] distinct).1, ?_, ?_, ?_⟩
  · intro base
    simpa [checkInputShape, base] using shape
  · intro notBase txin member
    simp only [checkInputShape, notBase, Bool.false_eq_true, if_false, List.all_eq_true] at shape
    simpa using shape txin member
  · unfold checkComment at comment
    split_ifs at comment
    · exact of_decide_eq_true comment
    · exact (of_decide_eq_true comment).le.trans (Nat.zero_le _)

/-! ## Signature operations and sizes -/

def getLegacySigOpCount (tx : CTransaction) : Nat :=
  (tx.vin.map fun txin => getSigOpCount txin.scriptSig false).sum +
    (tx.vout.map fun txout => getSigOpCount txout.scriptPubKey false).sum

theorem le_length_serializeVector (element : A → Bytes) (least : Nat)
    (large : ∀ x, least ≤ (element x).length) (xs : List A) :
    1 + least * xs.length ≤ (serializeVector element xs).length := by
  have body : least * xs.length ≤ (xs.flatMap element).length := by
    induction xs with
    | nil => simp
    | cons x xs ih =>
      have one := large x
      simp only [flatMap_cons, length_append, length_cons, Nat.mul_succ]
      omega
  have prefixed := one_le_compactSize_length xs.length
  simp only [serializeVector, length_append]
  omega

theorem le_serializeSize (tx : CTransaction) :
    14 + 41 * tx.vin.length + 9 * tx.vout.length ≤ serializeSize tx := by
  have vins := le_length_serializeVector serializeTxIn 41 (fun txin => by
    have script := one_le_compactSize_length txin.scriptSig.length
    simp only [serializeTxIn, writeUint256, writeUint32, byteString, length_append, leBytes_length]
    omega) tx.vin
  have vouts := le_length_serializeVector serializeTxOut 9 (fun txout => by
    have script := one_le_compactSize_length txout.scriptPubKey.length
    simp only [serializeTxOut, byteString, length_append, leBytes_length]
    omega) tx.vout
  simp only [serializeSize, serialize, writeUint32, length_append, leBytes_length]
  omega

theorem length_le_serializeVector (element : A → Bytes) {xs : List A} {x : A} (member : x ∈ xs) :
    (element x).length ≤ (serializeVector element xs).length := by
  obtain ⟨before, after, rfl⟩ := append_of_mem member
  simp only [serializeVector, flatMap_append, flatMap_cons, length_append]
  omega

theorem Checked.lengths (checked : Checked tx) :
    (tx.vin.length ≤ maxBlockSize ∧ ∀ txin ∈ tx.vin, txin.scriptSig.length ≤ maxBlockSize) ∧
    (tx.vout.length ≤ maxBlockSize ∧ ∀ txout ∈ tx.vout, txout.scriptPubKey.length ≤ maxBlockSize) ∧
    tx.strTxComment.length ≤ maxBlockSize := by
  have bytes := checked.size
  have lengths := le_serializeSize tx
  have comment := checked.comment.trans (show maxTxCommentLen ≤ maxBlockSize by decide)
  have parts : (serializeVector serializeTxIn tx.vin).length +
      (serializeVector serializeTxOut tx.vout).length ≤ serializeSize tx := by
    simp only [serializeSize, serialize, length_append]
    omega
  refine ⟨⟨by omega, fun txin member => ?_⟩, ⟨by omega, fun txout member => ?_⟩, comment⟩
  · have one := length_le_serializeVector serializeTxIn member
    simp only [serializeTxIn, byteString, length_append] at one
    omega
  · have one := length_le_serializeVector serializeTxOut member
    simp only [serializeTxOut, byteString, length_append] at one
    omega

theorem Checked.addressable (checked : Checked tx) : Addressable tx := by
  have small : maxBlockSize < 256 ^ 8 := by decide
  obtain ⟨⟨vin, scriptSigs⟩, ⟨vout, scriptPubKeys⟩, comment⟩ := checked.lengths
  exact ⟨⟨vin.trans_lt small, fun txin member => (scriptSigs txin member).trans_lt small⟩,
    ⟨vout.trans_lt small, fun txout member => (scriptPubKeys txout member).trans_lt small⟩,
    comment.trans_lt small⟩

/-! ## Fees -/

def opReturn : UInt8 := 0x6a
def ecCompressedSize : Nat := 33
def opRetFeePerChar : Int := 15000

inductive GetMinFeeMode where
  | block
  | relay
  | send
  deriving DecidableEq

def isOpReturn (scriptPK : CScript) : Bool :=
  match getOp scriptPK with
  | some (opcode, _, _) => opcode == opReturn
  | none => false

/-- An `OP_RETURN` output is free when it carries one compressed key and a free
secret is left, which every other output grants once.  Both instructions are read up to
the end of the script; `OpRetFee` says when the source's reader does the same. -/
def opRetFee : List CTxOut → Int → Int → Int
  | [], _, nOpRetFee => nOpRetFee
  | txout :: rest, nFreeSSecret, nOpRetFee =>
    match getOp txout.scriptPubKey with
    | some (opcode, _, pc) =>
      if opcode = opReturn then
        let secret := match getOp pc with
          | some (_, vchR, _) => vchR.length == ecCompressedSize
          | none => false
        if secret = false ∨ nFreeSSecret < 1 then
          opRetFee rest nFreeSSecret
            (nOpRetFee + opRetFeePerChar * txout.scriptPubKey.length)
        else opRetFee rest (nFreeSSecret - 1) nOpRetFee
      else opRetFee rest nFreeSSecret nOpRetFee
    | none => opRetFee rest nFreeSSecret nOpRetFee

def getOpRetFee (tx : CTransaction) : Int :=
  opRetFee tx.vout ((tx.vout.filter fun txout => !isOpReturn txout.scriptPubKey).length) 0

def getSwiftFee (tx : CTransaction) : Int := commentFeePerChar * tx.strTxComment.length

/-- Raise the price as the block approaches full; `none` once it is full. -/
def raiseForBlock (nBlockSize nNewBlockSize : UInt32) (nMinFee : Int) : Option Int :=
  if nBlockSize ≠ 1 ∧ maxBlockSizeGen / 2 ≤ nNewBlockSize.toNat then
    if maxBlockSizeGen ≤ nNewBlockSize.toNat then none
    else some (nMinFee * (maxBlockSizeGen / (maxBlockSizeGen - nNewBlockSize.toNat) : Nat))
  else some nMinFee

def getMinFee (tx : CTransaction) (nBlockSize : UInt32) (mode : GetMinFeeMode)
    (nBytes : UInt32) : Int :=
  let nBaseFee := if mode = .relay then minRelayTxFee else minTxFee
  let flat := (1 + (nBytes.toNat / 1000 : Nat)) * nBaseFee
  let dusty := if flat < nBaseFee ∧ tx.vout.any (fun txout => txout.nValue.toInt < cent) then
      nBaseFee else flat
  match raiseForBlock nBlockSize (nBlockSize + nBytes) dusty with
  | none => maxMoney
  | some nMinFee =>
    let total := if 2 ≤ tx.nVersion then nMinFee + getSwiftFee tx + getOpRetFee tx else nMinFee
    if moneyRange total then total else maxMoney

/-! ## Finality -/

def lockTimeThreshold : Nat := 500000000

/-- `IsFinal(nBlockHeight, nBlockTime)`; a zero argument stands for the best height or the
clock. -/
def isFinal (nBestHeight adjustedTime : Int) (tx : CTransaction)
    (nBlockHeight nBlockTime : Int) : Bool :=
  let height := if nBlockHeight = 0 then nBestHeight else nBlockHeight
  let time := if nBlockTime = 0 then adjustedTime else nBlockTime
  decide (tx.nLockTime = 0) ||
    decide ((tx.nLockTime.toNat : Int) <
      if tx.nLockTime.toNat < lockTimeThreshold then height else time) ||
    tx.vin.all fun txin => txin.nSequence == 0xffffffff

end SynergyData.CheckTransaction
