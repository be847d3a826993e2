import SynergyFormal.Ledger.ConnectBlock

/-!
# The transaction index over a history of blocks

A history starts from an index that describes at most the genesis block and then
connects blocks to the tip and disconnects them from it, in any order.  The index
is at all times the canonical index of the transactions on the path to the tip.

No transaction can recur on one path.  A transaction with inputs would have to spend
outputs its first copy already spent, and the coinbase script starts with the height
of its block.
-/

set_option autoImplicit false

namespace SynergyLedger.SpentIndex

open SynergyData
open SynergyLib SynergyLib.Tree SynergyLib.OutputLedger Script Transaction CheckTransaction Block
  TxDB Inputs ConnectBlock
open List hiding le_refl

abbrev PlacedTx := CTransaction × CDiskTxPos

/-- The transactions on the path to a block, newest first.  Those of the genesis block
are never connected; `described` is what the first index holds of them. -/
def chainTxs (described : List PlacedTx) : CBlockIndex → List PlacedTx
  | .root _ => described
  | .grow p record => (blockTxs (.grow p record) record.block).reverse ++ chainTxs described p

variable {tip : CBlockIndex} {Known : CTransaction → Prop} {env : Env}

variable {pfork pindex : CBlockIndex} {genesis : BlockRecord} {start ledger : Ledger}
  {a b tx : CTransaction}

theorem chainTxs_above {described : List PlacedTx} (member : pfork ∈ path tip) :
    chainTxs described tip =
      (above pfork tip).flatMap (fun p => (blockTxs p (blockOf p)).reverse) ++
        chainTxs described pfork := by
  induction tip, member using path_induction with
  | base => simp [above_self]
  | step p record below ih =>
    rw [chainTxs, ih, above_grow below, flatMap_cons, append_assoc]
    rfl

/-- What `AcceptBlock` has checked, and a position in a real block file. -/
structure Accepted (pindex : CBlockIndex) : Prop where
  height : checkCoinbaseHeight (nHeight pindex) (blockOf pindex) = true
  file : (value pindex).nFile ≠ 0xffffffff

/-- A block that can stand on a path: accepted, checked, with known transactions. -/
structure Admitted (env : Env) (Known : CTransaction → Prop) (pindex : CBlockIndex) : Prop where
  accepted : Accepted pindex
  checked : CheckedBlock env (blockOf pindex)
  known : ∀ tx ∈ (blockOf pindex).vtx, Known tx

/-- The first index describes nothing or the single coinbase of the genesis block. -/
structure Described (env : Env) (Known : CTransaction → Prop) (genesis : BlockRecord)
    (described : List PlacedTx) (start : Ledger) : Prop where
  index : txView start.txdb = canonical (shape env) nullPos described
  contents : described = [] ∨
    (described = (blockTxs (.root genesis) genesis.block).reverse ∧
      genesis.block.vtx.length = 1 ∧ Admitted env Known (.root genesis))

/-- Successful calls at the tip.  Between two calls the caller commits, or goes on in
the same database transaction; neither changes the index a reader sees. -/
inductive History (env : Env) (Known : CTransaction → Prop) (start : Ledger)
    (genesis : BlockRecord) : Ledger → CBlockIndex → Prop where
  | start {settled : Ledger} (kept : txView settled.txdb = txView start.txdb) :
      History env Known start genesis settled (.root genesis)
  | connect {ledger next settled : Ledger} {tip : CBlockIndex} {record : BlockRecord}
      {adjustedTime : Int} {pool : PoolLookup}
      (past : History env Known start genesis ledger tip)
      (accepted : Accepted (.grow tip record)) (known : ∀ tx ∈ record.block.vtx, Known tx)
      (run : connectBlock env adjustedTime pool ledger record.block (.grow tip record) = some next)
      (kept : txView settled.txdb = txView next.txdb) :
      History env Known start genesis settled (.grow tip record)
  | disconnect {ledger next settled : Ledger} {tip : CBlockIndex} {record : BlockRecord}
      (past : History env Known start genesis ledger (.grow tip record))
      (run : disconnectBlock env ledger record.block (.grow tip record) = some next)
      (kept : txView settled.txdb = txView next.txdb) :
      History env Known start genesis settled tip

theorem History.settle {other : Ledger} (past : History env Known start genesis ledger tip)
    (same : txView other.txdb = txView ledger.txdb) :
    History env Known start genesis other tip := by
  cases past with
  | start kept => exact .start (same.trans kept)
  | connect past accepted known run kept => exact .connect past accepted known run (same.trans kept)
  | disconnect past run kept => exact .disconnect past run (same.trans kept)

/-! ## Transactions with one hash -/

theorem isCoinBase_congr (vins : a.vin = b.vin) (vouts : a.vout = b.vout) :
    isCoinBase a = isCoinBase b := by
  simp [isCoinBase, vins, vouts]

theorem spends_congr (vins : a.vin = b.vin) (vouts : a.vout = b.vout) : spends a = spends b := by
  simp [spends, isCoinBase_congr vins vouts, vins]

theorem isCoinBase_of_spends_nil (checked : Checked tx) (spendless : spends tx = []) :
    isCoinBase tx = true := by
  by_contra ordinary
  simp only [spends, ordinary, if_false, map_eq_nil_iff] at spendless
  exact checked.inputs spendless

/-! ## Heights -/

/-- The first input script starts with this height. -/
def Tagged (height : Nat) (tx : CTransaction) : Prop :=
  ∃ txin rest, tx.vin = txin :: rest ∧ pushInt64 height <+: txin.scriptSig

theorem tagged_of_check {height : Nat} {b : CBlock} {first : CTransaction}
    {rest : List CTransaction} (shape : b.vtx = first :: rest)
    (check : checkCoinbaseHeight height b = true) : Tagged height first := by
  simp only [checkCoinbaseHeight, shape] at check
  split at check
  · cases check
  · rename_i txin others inputs
    exact ⟨txin, others, inputs, List.isPrefixOf_iff_prefix.mp check⟩

theorem tagged_unique {first second : Nat} (checked : Checked a) (base : isCoinBase a = true)
    (vins : a.vin = b.vin) (aTag : Tagged first a) (bTag : Tagged second b) : first = second := by
  obtain ⟨txin, rest, inputs, s, firstScript⟩ := aTag
  obtain ⟨txin', rest', inputs', t, secondScript⟩ := bTag
  have sameInput : txin = txin' := by
    rw [← vins, inputs] at inputs'
    exact (cons.inj inputs').1
  subst sameInput
  have short : txin.scriptSig.length ≤ 100 := by
    have limit := (checked.coinbase base).2
    simpa [coinbaseScriptSize, inputs] using limit
  have firstLength := congrArg List.length firstScript
  have secondLength := congrArg List.length secondScript
  rw [length_append] at firstLength secondLength
  exact height_tag_unique (by omega) (by omega) (firstScript.trans secondScript.symm)

/-! ## The path to a tip -/

/-- Every block on the path after the genesis block is admitted. -/
def PathAdmitted (env : Env) (Known : CTransaction → Prop) : CBlockIndex → Prop
  | .root _ => True
  | .grow p record => PathAdmitted env Known p ∧ Admitted env Known (.grow p record)

theorem PathAdmitted.above (admitted : PathAdmitted env Known tip) (member : pfork ∈ path tip) :
    ∀ p ∈ Tree.above pfork tip, Admitted env Known p := by
  induction tip, member using path_induction with
  | base => simp [above_self]
  | step p record below ih =>
    intro q inside
    rw [above_grow below] at inside
    rcases mem_cons.mp inside with rfl | later
    · exact admitted.2
    · exact ih admitted.1 q later

theorem history_admitted (history : History env Known start genesis ledger tip) :
    PathAdmitted env Known tip := by
  induction history with
  | start kept => trivial
  | @connect ledger next settled tip record _ _ past accepted known run kept ih =>
    obtain ⟨checked, _⟩ := connectBlock_cases run
    exact ⟨ih, accepted, checked, known⟩
  | disconnect past run kept ih => exact ih.1

/-- What is known of every transaction on a path: its coinbases carry their heights. -/
structure OnPath (Known : CTransaction → Prop) (height : Nat) (tx : CTransaction) : Prop where
  known : Known tx
  checked : Checked tx
  tagged : isCoinBase tx = true → ∃ h, h ≤ height ∧ Tagged h tx

theorem onPath_block (admitted : Admitted env Known pindex) (member : tx ∈ (blockOf pindex).vtx) :
    Known tx ∧ Checked tx ∧ (isCoinBase tx = true → Tagged (nHeight pindex) tx) := by
  refine ⟨admitted.known tx member, admitted.checked.transactions tx member, fun base => ?_⟩
  obtain ⟨first, rest, shape⟩ := exists_cons_of_ne_nil admitted.checked.nonempty
  rw [shape] at member
  rcases mem_cons.mp member with rfl | later
  · exact tagged_of_check shape admitted.accepted.height
  · have ordinary := (admitted.checked.coinbase first rest shape).2 tx later
    rw [base] at ordinary
    cases ordinary

theorem mem_blockTxs {b : CBlock} {x : PlacedTx} (member : x ∈ blockTxs pindex b) :
    x.1 ∈ b.vtx := by
  rw [← blockTxs_fst pindex b]
  exact List.mem_map_of_mem member

section Path
variable {described : List PlacedTx}

theorem onPath_chainTxs (first : Described env Known genesis described start) :
    ∀ tip : CBlockIndex, PathAdmitted env Known tip → ∀ x ∈ chainTxs described tip,
      OnPath Known (nHeight tip) x.1 := by
  intro tip
  induction tip with
  | root record =>
    intro _ x member
    rcases first.contents with empty | ⟨contents, _, admitted⟩
    · simp [chainTxs, empty] at member
    · have inBlock : x.1 ∈ genesis.block.vtx := by
        simp only [chainTxs, contents, mem_reverse] at member
        exact mem_blockTxs member
      obtain ⟨known, checked, tagged⟩ := onPath_block admitted inBlock
      exact ⟨known, checked, fun base => ⟨0, Nat.zero_le _, tagged base⟩⟩
  | grow p record ih =>
    rintro ⟨older, admitted⟩ x member
    rcases mem_append.mp member with here | before
    · obtain ⟨known, checked, tagged⟩ := onPath_block admitted (mem_blockTxs (mem_reverse.mp here))
      exact ⟨known, checked, fun base => ⟨_, le_refl _, tagged base⟩⟩
    · obtain ⟨known, checked, tagged⟩ := ih older x before
      refine ⟨known, checked, fun base => ?_⟩
      obtain ⟨h, bound, tag⟩ := tagged base
      exact ⟨h, bound.trans (Nat.le_succ _), tag⟩

variable {record : BlockRecord}

theorem connect_canonical (distinct : CollisionFree env Known)
    (first : Described env Known genesis described start)
    (path : PathAdmitted env Known (.grow tip record))
    (valid : Valid (shape env) nullPos CDiskTxPos.isNull (chainTxs described tip))
    {result : TxIndexMap}
    (run : (blockTxs (.grow tip record) record.block).foldlM (extendTx env)
      (canonical (shape env) nullPos (chainTxs described tip)) = some result) :
    Valid (shape env) nullPos CDiskTxPos.isNull (chainTxs described (.grow tip record)) ∧
      result = canonical (shape env) nullPos (chainTxs described (.grow tip record)) := by
  obtain ⟨older, admitted⟩ := path
  have earlier := onPath_chainTxs first tip older
  have here := fun x (member : x ∈ blockTxs (.grow tip record) record.block) =>
    onPath_block admitted (mem_blockTxs member)
  refine Valid.foldlM_extend nullPos_isNull (chainTxs described tip) result valid ?_ ?_ ?_ ?_ run
  · have names : (blockTxs (.grow tip record) record.block).map (fun x => getTxHash env x.1) =
        record.block.vtx.map (getTxHash env) := by
      rw [← blockTxs_fst (.grow tip record) record.block, List.map_map]
      rfl
    exact names ▸ admitted.checked.distinct
  · intro x member
    have position := (txPositions_file _ x member).1
    have file := admitted.accepted.file
    simpa [CDiskTxPos.isNull, position] using file
  · intro x member y older same
    obtain ⟨vins, vouts⟩ := distinct.same_parts (earlier y older).known (here x member).1
      (earlier y older).checked.addressable (here x member).2.1.addressable same
    exact spends_congr vins vouts
  · intro x member spendless y older same
    obtain ⟨known, checked, tagged⟩ := here x member
    obtain ⟨vins, vouts⟩ := distinct.same_parts (earlier y older).known known
      (earlier y older).checked.addressable checked.addressable same
    have base := isCoinBase_of_spends_nil checked spendless
    have olderBase : isCoinBase y.1 = true := by rw [isCoinBase_congr vins vouts, base]
    obtain ⟨h, bound, tag⟩ := (earlier y older).tagged olderBase
    have equal := tagged_unique (earlier y older).checked olderBase vins tag (tagged base)
    rw [equal] at bound
    exact absurd bound (Nat.not_succ_le_self _)

theorem disconnect_canonical
    (valid : Valid (shape env) nullPos CDiskTxPos.isNull (chainTxs described (.grow tip record)))
    (index : txView ledger.txdb =
      canonical (shape env) nullPos (chainTxs described (.grow tip record))) :
    ∃ next, disconnectBlock env ledger record.block (.grow tip record) = some next ∧
      txView next.txdb = canonical (shape env) nullPos (chainTxs described tip) := by
  have walk := Valid.foldlM_retract nullPos_isNull (chainTxs described tip) valid
  have order : (blockTxs (.grow tip record) record.block).reverse.map Prod.fst =
      record.block.vtx.reverse := by rw [map_reverse, blockTxs_fst]
  have view := disconnectBlock_view env ledger record.block (.grow tip record)
  rw [index] at view
  rw [order] at walk
  exact Option.map_eq_some_iff.mp (view.trans walk)

theorem described_valid (first : Described env Known genesis described start) :
    Valid (shape env) nullPos CDiskTxPos.isNull described := by
  rcases first.contents with rfl | ⟨rfl, single, admitted⟩
  · exact .nil
  · obtain ⟨tx, shape⟩ := length_eq_one_iff.mp single
    obtain ⟨base, _⟩ := admitted.checked.coinbase tx [] shape
    have spendless : spends tx = [] := by simp [spends, base]
    have file := admitted.accepted.file
    simp only [blockTxs, shape, txPositions, reverse_cons, reverse_nil, nil_append]
    refine .cons .nil ?_ ?_ (by simp) ?_
    · simp [SynergyLedger.Inputs.shape, spendless]
    · simp [SynergyLedger.Inputs.shape, spendless]
    · simpa [CDiskTxPos.isNull] using file

theorem history_canonical (distinct : CollisionFree env Known)
    (first : Described env Known genesis described start)
    (history : History env Known start genesis ledger tip) :
    Valid (shape env) nullPos CDiskTxPos.isNull (chainTxs described tip) ∧
      txView ledger.txdb = canonical (shape env) nullPos (chainTxs described tip) := by
  induction history with
  | start kept => exact ⟨described_valid first, kept.trans first.index⟩
  | @connect ledger next settled tip record _ _ past accepted known run kept ih =>
    obtain ⟨valid, index⟩ := ih
    have path := history_admitted (past.connect accepted known run kept)
    have extended := connectBlock_view run
    rw [index] at extended
    rw [kept]
    exact connect_canonical distinct first path valid extended
  | @disconnect ledger next settled tip record past run kept ih =>
    obtain ⟨valid, index⟩ := ih
    obtain ⟨result, same, restored⟩ := disconnect_canonical valid index
    rw [run, Option.some.injEq] at same
    refine ⟨valid.drop, ?_⟩
    rw [kept, same, restored]

end Path

/-! ## No output is spent twice -/

/-- Some input of the transaction names output `n` of `txid`. -/
def SpendsOutput (tx : CTransaction) (txid : Uint256) (n : Nat) : Prop :=
  ∃ txin ∈ tx.vin, txin.prevout.hash = txid ∧ txin.prevout.n.toNat = n

/-- The index records the chain: its transactions, one slot per output, and in each
slot whether the output is spent, which happens at most once. -/
structure Describes (env : Env) (index : TxIndexMap) (chain : List PlacedTx) : Prop where
  entries : ∀ txid, (index txid).isSome = true ↔ ∃ x ∈ chain, getTxHash env x.1 = txid
  slots : ∀ x ∈ chain, ∃ entry, index (getTxHash env x.1) = some entry ∧ entry.pos = x.2 ∧
    entry.slots.length = x.1.vout.length
  spent : ∀ txid entry n slot, index txid = some entry → entry.slots[n]? = some slot →
    (slot.isNull = false ↔ ∃ x ∈ chain, SpendsOutput x.1 txid n)
  once : ∀ txid entry n, index txid = some entry → n < entry.slots.length →
    ∀ (i j : Nat) (x y : PlacedTx), chain[i]? = some x → chain[j]? = some y →
      SpendsOutput x.1 txid n → SpendsOutput y.1 txid n → i = j

theorem spendsOutput_iff {txid : Uint256} {n : Nat} (small : n < 0xffffffff) :
    SpendsOutput tx txid n ↔ (txid, n) ∈ spends tx := by
  cases base : isCoinBase tx with
  | false =>
    simp only [SpendsOutput, spends, base, Bool.false_eq_true, if_false, List.mem_map, outpoint,
      Prod.mk.injEq]
  | true =>
    simp only [spends, base, if_true, not_mem_nil, iff_false]
    rintro ⟨txin, member, _, number⟩
    unfold isCoinBase at base
    split at base
    · rename_i only inputs
      rw [inputs, mem_singleton] at member
      subst member
      simp only [COutPoint.isNull, Bool.and_eq_true, beq_iff_eq] at base
      rw [base.1.2] at number
      exact absurd small (by rw [← number]; decide)
    · cases base

theorem describes_of_valid {chain : List PlacedTx}
    (valid : Valid (shape env) nullPos CDiskTxPos.isNull chain)
    (checked : ∀ x ∈ chain, Checked x.1) :
    Describes env (canonical (shape env) nullPos chain) chain := by
  have entries : ∀ txid, (canonical (shape env) nullPos chain txid).isSome = true ↔
      ∃ x ∈ chain, getTxHash env x.1 = txid := canonical_isSome_iff chain
  have slots : ∀ x ∈ chain, ∃ entry, canonical (shape env) nullPos chain (getTxHash env x.1) =
      some entry ∧ entry.pos = x.2 ∧ entry.slots.length = x.1.vout.length := valid.entry
  -- a transaction has far fewer than 2^32 outputs
  have small : ∀ txid entry n, canonical (shape env) nullPos chain txid = some entry →
      n < entry.slots.length → n < 0xffffffff := by
    intro txid entry n present bound
    obtain ⟨x, member, rfl⟩ := (entries txid).mp (by rw [present]; rfl)
    obtain ⟨found, foundAt, _, outputs⟩ := slots x member
    have same : entry = found := Option.some.inj (present.symm.trans foundAt)
    have size := (checked x member).size
    have lengths := le_serializeSize x.1
    have limit : maxBlockSize = 250000 := rfl
    rw [same] at bound
    omega
  refine ⟨entries, slots, ?_, ?_⟩
  · intro txid entry n slot present slotAt
    have bound : n < entry.slots.length := (List.getElem?_eq_some_iff.mp slotAt).1
    simp only [spendsOutput_iff (small txid entry n present bound)]
    exact (valid.slot nullPos_isNull txid entry n slot present slotAt).1
  · intro txid entry n present bound i j x y xAt yAt xSpends ySpends
    rw [spendsOutput_iff (small txid entry n present bound)] at xSpends ySpends
    have apart := pairwise_iff_getElem.mp (valid.spends_pairwise nullPos_isNull)
    obtain ⟨iBound, rfl⟩ := List.getElem?_eq_some_iff.mp xAt
    obtain ⟨jBound, rfl⟩ := List.getElem?_eq_some_iff.mp yAt
    rcases Nat.lt_trichotomy i j with before | equal | after
    · exact absurd ySpends (apart i j iBound jBound before _ xSpends)
    · exact equal
    · exact absurd xSpends (apart j i jBound iBound after _ ySpends)

/-! ### A small chain

Six blocks mature the first coinbase.  `saverTx` spends it, and `childTx` spends what `saverTx`
pays in the same block; `rivalTx` spends it in another block.  `refusedIndex` claims more than
the subsidy. -/

def plainChain : Nat → CBlockIndex
  | 0 => .root toyGenesis
  | n + 1 => toyChild (plainChain n) [toyCoinbase (n + 1) 100000000]

def savedOutput : COutPoint := ⟨getTxHash (toyEnv []) (toyCoinbase 1 100000000), 0⟩
def saverTx : CTransaction := toyTx [savedOutput] [pay 90000000]
def childTx : CTransaction := toyTx [⟨getTxHash (toyEnv []) saverTx, 0⟩] [pay 80000000]
def rivalTx : CTransaction := toyTx [savedOutput] [pay 80000000]

def rivalRecord : BlockRecord := value (toyChild (plainChain 6) [toyCoinbase 7 100000000, rivalTx])

def rivalIndex : CBlockIndex := .grow (plainChain 6) rivalRecord

def saverRecord : BlockRecord :=
  value (toyChildIn 2 (plainChain 6) [toyCoinbase 7 100000000, saverTx, childTx])

def saverIndex : CBlockIndex := .grow (plainChain 6) saverRecord

def refusedIndex : CBlockIndex := toyChildIn 2 saverIndex [toyCoinbase 8 1000000000000000]
def eighthIndex : CBlockIndex := toyChildIn 3 saverIndex [toyCoinbase 8 100000000]
def ninthIndex : CBlockIndex := toyChildIn 3 eighthIndex [toyCoinbase 9 100000000]

def plainBlocks : List CBlockIndex :=
  (range 7).map plainChain ++ [rivalIndex, saverIndex, refusedIndex, eighthIndex, ninthIndex]

def plainEnv : Env := toyEnv (plainBlocks.flatMap fun p => blockTxs p (blockOf p))

def plainTxs : List CTransaction :=
  [saverTx, childTx, rivalTx, toyCoinbase 8 1000000000000000] ++
    (range 9).map fun n => toyCoinbase (n + 1) 100000000

def PlainKnown (tx : CTransaction) : Prop := tx ∈ plainTxs

theorem collisionFree_plainKnown : CollisionFree plainEnv PlainKnown := by
  have apart : (plainTxs.map (getTxHash plainEnv)).Nodup := by decide +kernel
  intro a b aKnown bKnown same
  exact congrArg serialize (inj_on_of_nodup_map apart aKnown bKnown same)

/-- The ledger after the block is connected. -/
def connected (ledger : Ledger) (pindex : CBlockIndex) : Ledger :=
  (connectBlock plainEnv 1432700000 emptyPool ledger (blockOf pindex) pindex).getD ledger

theorem connectBlock_connected (ledger : Ledger) (pindex : CBlockIndex)
    (connects : (connectBlock plainEnv 1432700000 emptyPool ledger (blockOf pindex)
      pindex).isSome = true) :
    connectBlock plainEnv 1432700000 emptyPool ledger (blockOf pindex) pindex =
      some (connected ledger pindex) := by
  obtain ⟨next, run⟩ := Option.isSome_iff_exists.mp connects
  rw [connected, run, Option.getD_some]

abbrev PlainHistory : Ledger → CBlockIndex → Prop :=
  History plainEnv PlainKnown emptyLedger toyGenesis

theorem history_connected {record : BlockRecord} (past : PlainHistory ledger tip)
    (accepted : checkCoinbaseHeight (nHeight (.grow tip record)) record.block = true ∧
      record.nFile ≠ 0xffffffff ∧ (∀ tx ∈ record.block.vtx, PlainKnown tx) ∧
      (connectBlock plainEnv 1432700000 emptyPool ledger record.block
        (.grow tip record)).isSome = true) :
    PlainHistory (connected ledger (.grow tip record)) (.grow tip record) := by
  obtain ⟨height, file, known, connects⟩ := accepted
  exact .connect past ⟨height, file⟩ known (connectBlock_connected ledger (.grow tip record) connects)
    rfl

def plainLedger : Nat → Ledger
  | 0 => emptyLedger
  | n + 1 => connected (plainLedger n) (plainChain (n + 1))

theorem history_plainLedger : ∀ n < 7, PlainHistory (plainLedger n) (plainChain n) := by
  have connects : ∀ n < 6, checkCoinbaseHeight (nHeight (plainChain (n + 1)))
        (blockOf (plainChain (n + 1))) = true ∧
      (value (plainChain (n + 1))).nFile ≠ 0xffffffff ∧
      (∀ tx ∈ (blockOf (plainChain (n + 1))).vtx, PlainKnown tx) ∧
      (connectBlock plainEnv 1432700000 emptyPool (plainLedger n) (blockOf (plainChain (n + 1)))
        (plainChain (n + 1))).isSome = true := by
    unfold PlainKnown
    decide +kernel
  intro n bound
  induction n with
  | zero => exact .start rfl
  | succ n ih => exact history_connected (ih (by omega)) (connects n (by omega))

/-- `rivalIndex` is connected and disconnected again. -/
def undoneLedger : Ledger :=
  (disconnectBlock plainEnv (connected (plainLedger 6) rivalIndex) rivalRecord.block
    rivalIndex).getD emptyLedger

theorem history_undoneLedger : PlainHistory undoneLedger (plainChain 6) := by
  have past : PlainHistory (connected (plainLedger 6) rivalIndex) rivalIndex :=
    history_connected (history_plainLedger 6 (by decide)) (by unfold PlainKnown; decide +kernel)
  have undone : (disconnectBlock plainEnv (connected (plainLedger 6) rivalIndex)
      rivalRecord.block rivalIndex).isSome = true := by decide +kernel
  obtain ⟨next, run⟩ := Option.isSome_iff_exists.mp undone
  refine .disconnect past (run.trans ?_) rfl
  rw [undoneLedger, run, Option.getD_some]

theorem saverIndex_accepted :
    checkCoinbaseHeight (nHeight saverIndex) saverRecord.block = true ∧
      saverRecord.nFile ≠ 0xffffffff ∧ (∀ tx ∈ saverRecord.block.vtx, PlainKnown tx) ∧
      (connectBlock plainEnv 1432700000 emptyPool undoneLedger saverRecord.block
        saverIndex).isSome = true := by
  unfold PlainKnown
  decide +kernel

/-- After any history of connected and disconnected blocks the transaction index
describes the path to the tip. -/
theorem index_describes_chain (env : Env) (Known : CTransaction → Prop) (start ledger : Ledger)
    (genesis : BlockRecord) (described : List PlacedTx) (tip : CBlockIndex)
    (distinct : CollisionFree env Known) (first : Described env Known genesis described start)
    (history : History env Known start genesis ledger tip) :
    Describes env (txView ledger.txdb) (chainTxs described tip) := by
  obtain ⟨valid, index⟩ := history_canonical distinct first history
  have path := onPath_chainTxs first tip (history_admitted history)
  rw [index]
  exact describes_of_valid valid fun x member => (path x member).checked

/-- `saverIndex` is connected where `rivalIndex` was before. -/
theorem index_describes_saverIndex :
    Describes plainEnv (txView (connected undoneLedger saverIndex).txdb) (chainTxs [] saverIndex) :=
  index_describes_chain plainEnv PlainKnown emptyLedger _ toyGenesis [] _
    collisionFree_plainKnown ⟨rfl, Or.inl rfl⟩
    (history_connected history_undoneLedger saverIndex_accepted)

/-! ## Disconnecting undoes connecting -/

/-- Disconnecting a block that was just connected succeeds and restores every entry. -/
theorem disconnect_inverts_connect (env : Env) (Known : CTransaction → Prop)
    (start ledger next settled : Ledger) (genesis : BlockRecord) (described : List PlacedTx)
    (tip : CBlockIndex) (record : BlockRecord) (adjustedTime : Int) (pool : PoolLookup)
    (distinct : CollisionFree env Known) (first : Described env Known genesis described start)
    (history : History env Known start genesis ledger tip)
    (accepted : Accepted (.grow tip record)) (known : ∀ tx ∈ record.block.vtx, Known tx)
    (connect : connectBlock env adjustedTime pool ledger record.block (.grow tip record) =
      some next)
    (kept : txView settled.txdb = txView next.txdb) :
    ∃ restored, disconnectBlock env settled record.block (.grow tip record) = some restored ∧
      ∀ txid, txView restored.txdb txid = txView ledger.txdb txid := by
  obtain ⟨_, before⟩ := history_canonical distinct first history
  obtain ⟨valid, after⟩ := history_canonical distinct first
    (history.connect accepted known connect kept)
  obtain ⟨restored, run, index⟩ := disconnect_canonical valid after
  exact ⟨restored, run, fun txid => by rw [index, before]⟩

theorem disconnect_inverts_saverIndex : ∃ restored,
    disconnectBlock plainEnv (connected undoneLedger saverIndex) saverRecord.block saverIndex =
      some restored ∧
    ∀ txid, txView restored.txdb txid = txView undoneLedger.txdb txid :=
  have ⟨height, file, known, connects⟩ := saverIndex_accepted
  disconnect_inverts_connect plainEnv PlainKnown emptyLedger undoneLedger _ _ toyGenesis []
    (plainChain 6) saverRecord 1432700000 emptyPool collisionFree_plainKnown ⟨rfl, Or.inl rfl⟩
    history_undoneLedger ⟨height, file⟩ known
    (connectBlock_connected undoneLedger saverIndex connects) rfl

end SynergyLedger.SpentIndex
