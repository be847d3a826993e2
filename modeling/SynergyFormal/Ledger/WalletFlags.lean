import SynergyFormal.Ledger.Wallet

/-!
# What wallet updates do to spent flags

Every update of a wallet while blocks come and go sets the flags of some outputs and
leaves the others.  `touch` says which value an update gives to an output, if any;
`lastTouch` follows a list of updates, and the last one that touches an output decides
its flag.
-/

set_option autoImplicit false

namespace SynergyLedger.WalletFlags

open SynergyData
open Script Transaction Block Wallet

/-- One call of `SyncWithWallets`. -/
inductive Sync where
  | connected (hashBlock : Uint256) (tx : CTransaction)
  | disconnected (tx : CTransaction)

def applySync (env : Env) (w : CWallet) : Sync → CWallet
  | .connected hashBlock tx => addToWalletIfInvolvingMe env w tx hashBlock true
  | .disconnected tx => if isCoinStake tx && isFromMe w tx then disableTransaction w tx else w

/-- An output of a wallet transaction that pays the wallet. -/
def ownOutput (w : CWallet) (hash : Uint256) (n : Nat) : Bool :=
  match w.mapWallet.lookup hash with
  | none => false
  | some wtx => (wtx.tx.vout[n]?).any (isMine w)

def namesOutput (vin : List CTxIn) (hash : Uint256) (n : Nat) : Bool :=
  vin.any fun txin => txin.prevout.hash == hash && txin.prevout.n.toNat == n

/-- The copy of a transaction the wallet keeps, if it has one. -/
def storedTx (env : Env) (w : CWallet) (tx : CTransaction) : CTransaction :=
  match w.mapWallet.lookup (getTxHash env tx) with
  | none => tx
  | some wtx => wtx.tx

def withStealth (env : Env) (w : CWallet) (tx : CTransaction) : CWallet :=
  { w with ownsScript := env.findStealthTransactions tx w.ownsScript }

/-- The flag an update gives to an output.  A connected transaction marks what it spends
and clears its own outputs; a disconnected coinstake of ours releases what it spent. -/
def touch (env : Env) (w : CWallet) (hash : Uint256) (n : Nat) : Sync → Option Bool
  | .connected hashBlock tx =>
    if !ownOutput (withStealth env w tx) hash n then none
    else if hashBlock ≠ 0 ∧ getTxHash env tx = hash then some false
    else if namesOutput (storedTx env w tx).vin hash n then some true
    else none
  | .disconnected tx =>
    if isCoinStake tx && isFromMe w tx && namesOutput tx.vin hash n && ownOutput w hash n then
      some false
    else none

def lastTouch (env : Env) (hash : Uint256) (n : Nat) : CWallet → List Sync → Option Bool
  | _, [] => none
  | w, sync :: rest =>
    (lastTouch env hash n (applySync env w sync) rest).or (touch env w hash n sync)

/-- The wallet keeps its transactions under their hashes. -/
def Keyed (env : Env) (w : CWallet) : Prop :=
  ∀ hash wtx, w.mapWallet.lookup hash = some wtx → getTxHash env wtx.tx = hash

/-! ## Writes -/

/-- From `w` to `w'` transactions are kept and exactly the touched flags are set. -/
def Writes (touched : Uint256 → Nat → Option Bool) (w w' : CWallet) : Prop :=
  ∀ hash wtx, w.mapWallet.lookup hash = some wtx →
    ∃ wtx', w'.mapWallet.lookup hash = some wtx' ∧ wtx'.tx = wtx.tx ∧
      ∀ n, n < wtx.tx.vout.length → isSpent wtx' n = (touched hash n).getD (isSpent wtx n)

theorem Writes.refl (w : CWallet) : Writes (fun _ _ => none) w w :=
  fun _ wtx present => ⟨wtx, present, rfl, fun _ _ => rfl⟩

variable {w : CWallet} {hash : Uint256} {env : Env}

theorem Writes.trans {first second : Uint256 → Nat → Option Bool} {middle last : CWallet}
    (one : Writes first w middle) (two : Writes second middle last) :
    Writes (fun hash n => (second hash n).or (first hash n)) w last := by
  intro hash wtx present
  obtain ⟨wtx', present', same', flags'⟩ := one hash wtx present
  obtain ⟨wtx'', present'', same'', flags''⟩ := two hash wtx' present'
  refine ⟨wtx'', present'', same''.trans same', fun n bound => ?_⟩
  rw [flags'' n (same' ▸ bound), flags' n bound]
  dsimp only
  cases second hash n <;> rfl

variable {w' : CWallet} {touched : Uint256 → Nat → Option Bool} {wtx next : CWalletTx}
  {o : COutPoint} {tx : CTransaction}

theorem Writes.congr {other : Uint256 → Nat → Option Bool} (writes : Writes touched w w')
    (same : ∀ hash wtx, w.mapWallet.lookup hash = some wtx → ∀ n, touched hash n = other hash n) :
    Writes other w w' := by
  intro hash wtx present
  obtain ⟨wtx', present', kept, flags⟩ := writes hash wtx present
  exact ⟨wtx', present', kept, fun n bound => by rw [flags n bound, same hash wtx present n]⟩

theorem lookup_updateWtx_ne {other : Uint256} (different : other ≠ hash) :
    (updateWtx w hash wtx).mapWallet.lookup other = w.mapWallet.lookup other :=
  AList.lookup_insert_ne different

theorem lookup_updateWtx_self (w : CWallet) (hash : Uint256) (wtx : CWalletTx) :
    (updateWtx w hash wtx).mapWallet.lookup hash = some wtx :=
  AList.lookup_insert w.mapWallet

theorem writes_updateWtx (present : w.mapWallet.lookup hash = some wtx) (kept : next.tx = wtx.tx)
    {touched : Nat → Option Bool}
    (flags : ∀ n, n < wtx.tx.vout.length → isSpent next n = (touched n).getD (isSpent wtx n)) :
    Writes (fun h n => if h = hash then touched n else none) w (updateWtx w hash next) := by
  intro other wtx' present'
  by_cases same : other = hash
  · subst same
    obtain rfl : wtx = wtx' := Option.some.inj (present.symm.trans present')
    refine ⟨next, lookup_updateWtx_self w other next, kept, fun n bound => ?_⟩
    simpa using flags n bound
  · refine ⟨wtx', (lookup_updateWtx_ne same).trans present', rfl, fun n _ => ?_⟩
    simp [same]

theorem ownOutput_eq {n : Nat} (present : w.mapWallet.lookup hash = some wtx) :
    ownOutput w hash n = (wtx.tx.vout[n]?).any (isMine w) := by
  simp only [ownOutput, present]

/-- The wallets hold the same transactions. -/
def SameTxs (w w' : CWallet) : Prop :=
  ∀ hash, (w'.mapWallet.lookup hash).map CWalletTx.tx = (w.mapWallet.lookup hash).map CWalletTx.tx

theorem SameTxs.trans {w'' : CWallet} (one : SameTxs w w') (two : SameTxs w' w'') : SameTxs w w'' :=
  fun hash => (two hash).trans (one hash)

theorem sameTxs_updateWtx (present : w.mapWallet.lookup hash = some wtx) (kept : next.tx = wtx.tx) :
    SameTxs w (updateWtx w hash next) := by
  intro other
  by_cases same : other = hash
  · subst same
    rw [lookup_updateWtx_self, present, Option.map_some, Option.map_some, kept]
  · rw [lookup_updateWtx_ne same]

section SameTxs
variable (same : SameTxs w w')
include same

theorem SameTxs.keyed (keyed : Keyed env w) : Keyed env w' := by
  intro hash wtx' present'
  have txs := same hash
  rw [present'] at txs
  obtain ⟨wtx, present, equal⟩ := Option.map_eq_some_iff.mp txs.symm
  exact equal ▸ keyed hash wtx present

variable (owns : w'.ownsScript = w.ownsScript)
include owns

theorem SameTxs.ownOutput : ownOutput w' = ownOutput w := by
  funext hash n
  have shape : ∀ v : CWallet, WalletFlags.ownOutput v hash n = ((v.mapWallet.lookup hash).map
      CWalletTx.tx).any fun tx => (tx.vout[n]?).any fun txout => v.ownsScript txout.scriptPubKey := by
    intro v
    unfold WalletFlags.ownOutput
    cases v.mapWallet.lookup hash <;> rfl
  rw [shape, shape, same, owns]

theorem SameTxs.isFromMe : isFromMe w' = isFromMe w := by
  have shape : ∀ (v : CWallet) (o : COutPoint), ((ownPrevout v o).map fun p => p.2.nValue.toInt) =
      ((v.mapWallet.lookup o.hash).map CWalletTx.tx).bind fun tx => (tx.vout[o.n.toNat]?).bind
        fun txout => if v.ownsScript txout.scriptPubKey then some txout.nValue.toInt else none := by
    intro v o
    unfold ownPrevout
    cases v.mapWallet.lookup o.hash with
    | none => rfl
    | some prev =>
      cases outAt : prev.tx.vout[o.n.toNat]? with
      | none => simp [outAt]
      | some txout =>
        cases mine : v.ownsScript txout.scriptPubKey <;> simp [outAt, isMine, mine]
  funext tx
  simp only [Wallet.isFromMe, getDebit, shape, same _, owns]

end SameTxs

theorem keyed_updateWtx (keyed : Keyed env w) (hashed : getTxHash env next.tx = hash) :
    Keyed env (updateWtx w hash next) := by
  intro other wtx present
  by_cases same : other = hash
  · subst same
    rw [lookup_updateWtx_self, Option.some.injEq] at present
    exact present ▸ hashed
  · rw [lookup_updateWtx_ne same] at present
    exact keyed other wtx present

theorem ownPrevout_some {txout : CTxOut} (own : ownPrevout w o = some (wtx, txout)) :
    w.mapWallet.lookup o.hash = some wtx ∧ ownOutput w o.hash o.n.toNat = true := by
  unfold ownPrevout at own
  split at own
  · cases own
  · rename_i prev present
    split at own
    · cases own
    · rename_i out outAt
      split_ifs at own with mine
      cases own
      exact ⟨present, by simp [ownOutput, present, outAt, mine]⟩

theorem ownPrevout_none (foreign : ownPrevout w o = none) :
    ownOutput w o.hash o.n.toNat = false := by
  unfold ownPrevout at foreign
  split at foreign
  · rename_i absent
    simp [ownOutput, absent]
  · rename_i prev present
    split at foreign
    · rename_i missing
      simp [ownOutput, present, missing]
    · rename_i out outAt
      split_ifs at foreign with mine
      simpa [ownOutput, present, outAt] using mine

/-- Every wallet transaction is kept with the flags of its outputs. -/
def SameFlags (w w' : CWallet) : Prop := ∀ hash wtx, w.mapWallet.lookup hash = some wtx →
  ∃ wtx', w'.mapWallet.lookup hash = some wtx' ∧ wtx'.tx = wtx.tx ∧
    ∀ n, n < wtx.tx.vout.length → isSpent wtx' n = isSpent wtx n

theorem Writes.sameFlags_iff (writes : Writes touched w w') :
    SameFlags w w' ↔ ∀ hash wtx, w.mapWallet.lookup hash = some wtx →
      ∀ n, n < wtx.tx.vout.length →
        touched hash n = none ∨ touched hash n = some (isSpent wtx n) := by
  constructor
  · intro same hash wtx present n bound
    obtain ⟨wtx', present', _, flags⟩ := writes hash wtx present
    obtain ⟨wtx'', present'', _, kept⟩ := same hash wtx present
    have flag := flags n bound
    rw [Option.some.inj (present'.symm.trans present''), kept n bound] at flag
    cases value : touched hash n with
    | none => exact Or.inl rfl
    | some fSpent =>
      rw [value] at flag
      exact Or.inr (congrArg some flag.symm)
  · intro restored hash wtx present
    obtain ⟨wtx', present', kept, flags⟩ := writes hash wtx present
    refine ⟨wtx', present', kept, fun n bound => ?_⟩
    rw [flags n bound]
    rcases restored hash wtx present n bound with untouched | rewritten
    · rw [untouched]
      rfl
    · rw [rewritten]
      rfl

/-! ## The inputs of a transaction -/

/-- A step that sets the flag of the own output an input names. -/
structure SetsInput (fSpent : Bool) (step : CWallet → CTxIn → CWallet) : Prop where
  writes : ∀ w txin, Writes (fun hash n => if txin.prevout.hash = hash ∧
    txin.prevout.n.toNat = n ∧ ownOutput w hash n = true then some fSpent else none) w (step w txin)
  txs : ∀ w txin, SameTxs w (step w txin)
  owns : ∀ w txin, (step w txin).ownsScript = w.ownsScript

theorem setsInput_of_update (fSpent : Bool) (step : CWallet → CTxIn → CWallet)
    (foreign : ∀ w txin, ownPrevout w txin.prevout = none → step w txin = w)
    (owned : ∀ w txin wtx txout, ownPrevout w txin.prevout = some (wtx, txout) →
      step w txin = updateWtx w txin.prevout.hash (setSpent wtx txin.prevout.n.toNat fSpent) ∨
        (step w txin = w ∧ isSpent wtx txin.prevout.n.toNat = fSpent)) :
    SetsInput fSpent step := by
  have cases : ∀ w txin, (step w txin = w ∧
      (ownOutput w txin.prevout.hash txin.prevout.n.toNat = false ∨
        ∃ wtx, w.mapWallet.lookup txin.prevout.hash = some wtx ∧
          isSpent wtx txin.prevout.n.toNat = fSpent)) ∨
      ∃ wtx, w.mapWallet.lookup txin.prevout.hash = some wtx ∧
        ownOutput w txin.prevout.hash txin.prevout.n.toNat = true ∧
        step w txin = updateWtx w txin.prevout.hash (setSpent wtx txin.prevout.n.toNat fSpent) := by
    intro w txin
    cases prevout : ownPrevout w txin.prevout with
    | none => exact Or.inl ⟨foreign w txin prevout, Or.inl (ownPrevout_none prevout)⟩
    | some found =>
      obtain ⟨wtx, txout⟩ := found
      obtain ⟨present, own⟩ := ownPrevout_some prevout
      rcases owned w txin wtx txout prevout with updated | ⟨same, flag⟩
      · exact Or.inr ⟨wtx, present, own, updated⟩
      · exact Or.inl ⟨same, Or.inr ⟨wtx, present, flag⟩⟩
  refine ⟨fun w txin => ?_, fun w txin => ?_, fun w txin => ?_⟩
  · rcases cases w txin with ⟨same, reason⟩ | ⟨wtx, present, own, updated⟩
    · rw [same]
      intro hash wtx present
      refine ⟨wtx, present, rfl, fun n _ => ?_⟩
      dsimp only
      split_ifs with named
      · obtain ⟨rfl, rfl, own⟩ := named
        rcases reason with notOwn | ⟨wtx', present', flag⟩
        · rw [own] at notOwn
          cases notOwn
        · rw [Option.some.inj (present.symm.trans present'), flag]
          rfl
      · rfl
    · rw [updated]
      have flags : ∀ n, n < wtx.tx.vout.length →
          isSpent (setSpent wtx txin.prevout.n.toNat fSpent) n =
            (if n = txin.prevout.n.toNat then some fSpent else none).getD (isSpent wtx n) := by
        intro n bound
        rw [isSpent_setSpent bound]
        split_ifs <;> rfl
      have kept : (setSpent wtx txin.prevout.n.toNat fSpent).tx = wtx.tx := rfl
      refine (writes_updateWtx present kept flags).congr fun hash _ _ n => ?_
      by_cases sameHash : hash = txin.prevout.hash
      · by_cases sameNumber : n = txin.prevout.n.toNat
        · subst sameHash sameNumber
          simp [own]
        · simp [sameNumber, Ne.symm sameNumber]
      · simp [sameHash, Ne.symm sameHash]
  · rcases cases w txin with ⟨same, _⟩ | ⟨wtx, present, _, updated⟩
    · rw [same]
      exact fun _ => rfl
    · rw [updated]
      exact sameTxs_updateWtx present rfl
  · rcases cases w txin with ⟨same, _⟩ | ⟨wtx, _, _, updated⟩
    · rw [same]
    · rw [updated]
      rfl

theorem setsInput_walletSpendInput : SetsInput true walletSpendInput := by
  apply setsInput_of_update
  · intro w txin foreign
    simp [walletSpendInput, foreign]
  · intro w txin wtx txout own
    by_cases spent : isSpent wtx txin.prevout.n.toNat = true
    · exact Or.inr ⟨by simp [walletSpendInput, own, spent], spent⟩
    · exact Or.inl (by simp [walletSpendInput, own, spent, markSpent])

theorem setsInput_walletReleaseInput : SetsInput false walletReleaseInput := by
  apply setsInput_of_update
  · intro w txin foreign
    simp [walletReleaseInput, foreign]
  · intro w txin wtx txout own
    exact Or.inl (by simp [walletReleaseInput, own, markUnspent])

theorem SetsInput.foldl {fSpent : Bool} {step : CWallet → CTxIn → CWallet}
    (sets : SetsInput fSpent step) (vin : List CTxIn) :
    ∀ w : CWallet, Writes (fun hash n => if namesOutput vin hash n && ownOutput w hash n then
        some fSpent else none) w (vin.foldl step w) ∧
      SameTxs w (vin.foldl step w) ∧ (vin.foldl step w).ownsScript = w.ownsScript := by
  induction vin with
  | nil => intro w; exact ⟨.refl w, fun _ => rfl, rfl⟩
  | cons txin vin ih =>
    intro w
    obtain ⟨writes, txs, owns⟩ := ih (step w txin)
    refine ⟨?_, (sets.txs w txin).trans txs, owns.trans (sets.owns w txin)⟩
    refine ((sets.writes w txin).trans writes).congr fun hash _ _ n => ?_
    rw [(sets.txs w txin).ownOutput (sets.owns w txin)]
    simp only [namesOutput, List.any_cons, Bool.and_eq_true, Bool.or_eq_true, beq_iff_eq]
    by_cases later : (vin.any fun txin => txin.prevout.hash == hash &&
        txin.prevout.n.toNat == n) = true
    · by_cases mine : ownOutput w hash n = true <;> simp [later, mine]
    · simp [later, and_assoc]

/-! ## The outputs of a transaction -/

theorem unspendOwn_spec {vout : List CTxOut} :
    ∀ (wtx : CWalletTx) (k : Nat), (unspendOwn w wtx vout k).tx = wtx.tx ∧
      ∀ n, n < wtx.tx.vout.length → isSpent (unspendOwn w wtx vout k) n =
        if k ≤ n ∧ (vout[n - k]?).any (isMine w) = true then false else isSpent wtx n := by
  induction vout with
  | nil =>
    intro wtx k
    exact ⟨rfl, fun n _ => by simp [unspendOwn]⟩
  | cons txout rest ih =>
    intro wtx k
    have first : (if isMine w txout then markUnspent wtx k else wtx).tx = wtx.tx := by
      split_ifs <;> rfl
    obtain ⟨kept, flags⟩ :=
      ih (if isMine w txout then markUnspent wtx k else wtx) (k + 1)
    refine ⟨kept.trans first, fun n bound => ?_⟩
    rw [unspendOwn, flags n (first ▸ bound)]
    have marked : isSpent (if isMine w txout then markUnspent wtx k else wtx) n =
        if n = k ∧ isMine w txout = true then false else isSpent wtx n := by
      by_cases mine : isMine w txout = true
      · simp [mine, markUnspent, isSpent_setSpent bound]
      · simp [mine]
    rw [marked]
    rcases Nat.lt_trichotomy n k with before | here | after
    · simp [Nat.not_le.mpr before, show ¬k + 1 ≤ n by omega, show n ≠ k by omega]
    · subst here
      simp
    · obtain ⟨d, rfl⟩ : ∃ d, n = k + 1 + d := ⟨n - (k + 1), by omega⟩
      simp [show k + 1 + d - k = d + 1 by omega, show k + 1 + d ≠ k by omega,
        show k ≤ k + 1 + d by omega]

/-- What a pass of `WalletUpdateSpent` gives to an output, when the outputs of the
transaction itself are cleared. -/
def updateTouch (w : CWallet) (txid : Uint256) (vin : List CTxIn) (fBlock : Bool) (hash : Uint256)
    (n : Nat) : Option Bool :=
  if !ownOutput w hash n then none
  else if fBlock = true ∧ txid = hash then some false
  else if namesOutput vin hash n then some true
  else none

theorem writes_walletUpdateSpent (keyed : Keyed env w) (fBlock : Bool)
    (stored : ∀ wtx, w.mapWallet.lookup (getTxHash env tx) = some wtx → wtx.tx = tx) :
    Writes (updateTouch w (getTxHash env tx) tx.vin fBlock) w (walletUpdateSpent env w tx fBlock) ∧
      Keyed env (walletUpdateSpent env w tx fBlock) := by
  obtain ⟨writes, txs, owns⟩ := setsInput_walletSpendInput.foldl tx.vin w
  have spentKeyed := txs.keyed keyed
  cases fBlock with
  | false =>
    refine ⟨writes.congr fun hash _ _ n => ?_, spentKeyed⟩
    simp only [updateTouch, Bool.false_eq_true, false_and, if_false]
    cases ownOutput w hash n <;> cases namesOutput tx.vin hash n <;> rfl
  | true =>
    have unfolded : walletUpdateSpent env w tx true =
        match (tx.vin.foldl walletSpendInput w).mapWallet.lookup (getTxHash env tx) with
        | none => tx.vin.foldl walletSpendInput w
        | some wtx => updateWtx (tx.vin.foldl walletSpendInput w) (getTxHash env tx)
            (unspendOwn (tx.vin.foldl walletSpendInput w) wtx tx.vout 0) := rfl
    rw [unfolded]
    cases entry : (tx.vin.foldl walletSpendInput w).mapWallet.lookup (getTxHash env tx) with
    | none =>
      refine ⟨writes.congr fun hash wtx present n => ?_, spentKeyed⟩
      -- a transaction the wallet lacks has no outputs to clear
      have other : getTxHash env tx ≠ hash := by
        rintro rfl
        obtain ⟨_, kept, _⟩ := writes _ wtx present
        rw [entry] at kept
        cases kept
      simp only [updateTouch, other, and_false, if_false]
      cases ownOutput w hash n <;> cases namesOutput tx.vin hash n <;> rfl
    | some wtx =>
      obtain ⟨same, flags⟩ := unspendOwn_spec wtx 0
      have cleared : ∀ n, n < wtx.tx.vout.length →
          isSpent (unspendOwn (tx.vin.foldl walletSpendInput w) wtx tx.vout 0) n =
            (if (tx.vout[n]?).any (isMine w) = true then some false else none).getD
              (isSpent wtx n) := by
        intro n bound
        have mine : isMine (tx.vin.foldl walletSpendInput w) = isMine w := by
          funext txout
          rw [isMine, isMine, owns]
        rw [flags n bound, mine]
        simp only [Nat.zero_le, true_and, Nat.sub_zero]
        split_ifs <;> rfl
      refine ⟨(writes.trans (writes_updateWtx entry same cleared)).congr
        fun hash known present n => ?_,
        keyed_updateWtx spentKeyed (by rw [same]; exact spentKeyed _ wtx entry)⟩
      by_cases self : hash = getTxHash env tx
      · subst self
        have own : ownOutput w (getTxHash env tx) n = (tx.vout[n]?).any (isMine w) := by
          simp only [ownOutput, present, stored known present]
        simp only [updateTouch, own, and_self, if_true]
        cases (tx.vout[n]?).any (isMine w) <;> simp
      · simp only [updateTouch, self, Ne.symm self, and_false, if_false, Option.none_or]
        cases ownOutput w hash n <;> cases namesOutput tx.vin hash n <;> rfl

theorem writes_addToWallet (keyed : Keyed env w) {hashBlock : Uint256} :
    Writes (updateTouch w (getTxHash env tx) (storedTx env w tx).vin (decide (hashBlock ≠ 0))) w
        (addToWallet env w tx hashBlock) ∧ Keyed env (addToWallet env w tx hashBlock) := by
  -- `next` is the entry that is written first, with the transaction the wallet keeps
  have general : ∀ next : CWalletTx, next.tx = storedTx env w tx →
      (∀ known, w.mapWallet.lookup (getTxHash env tx) = some known →
        ∀ n, isSpent next n = isSpent known n) →
      addToWallet env w tx hashBlock = walletUpdateSpent env (updateWtx w (getTxHash env tx) next)
        next.tx (decide (hashBlock ≠ 0)) →
      Writes (updateTouch w (getTxHash env tx) (storedTx env w tx).vin (decide (hashBlock ≠ 0))) w
          (addToWallet env w tx hashBlock) ∧ Keyed env (addToWallet env w tx hashBlock) := by
    intro next holds flags shape
    have hashed : getTxHash env next.tx = getTxHash env tx := by
      rw [holds, storedTx]
      split
      · rfl
      · rename_i wtx present
        exact keyed _ wtx present
    have entered := keyed_updateWtx keyed hashed
    obtain ⟨writes, keyedLast⟩ := writes_walletUpdateSpent entered (decide (hashBlock ≠ 0))
      (fun wtx present => by
        rw [hashed, lookup_updateWtx_self, Option.some.injEq] at present
        rw [present])
    rw [shape]
    refine ⟨?_, keyedLast⟩
    have inserted : Writes (fun _ _ => none) w (updateWtx w (getTxHash env tx) next) := by
      intro hash wtx present
      by_cases same : hash = getTxHash env tx
      · subst same
        refine ⟨next, lookup_updateWtx_self _ _ _, ?_, fun n _ => flags wtx present n⟩
        rw [holds]
        simp [storedTx, present]
      · exact ⟨wtx, (lookup_updateWtx_ne same).trans present, rfl, fun _ _ => rfl⟩
    refine (inserted.trans writes).congr fun hash wtx present n => ?_
    have own : ownOutput (updateWtx w (getTxHash env tx) next) hash n = ownOutput w hash n := by
      by_cases same : hash = getTxHash env tx
      · subst same
        have kept : next.tx = wtx.tx := by
          rw [holds]
          simp [storedTx, present]
        rw [(sameTxs_updateWtx present kept).ownOutput rfl]
      · simp only [ownOutput, lookup_updateWtx_ne same]
        rfl
    rw [hashed, holds]
    simp only [updateTouch, own, Option.or_none]
  cases present : w.mapWallet.lookup (getTxHash env tx) with
  | none =>
    apply general ⟨tx, hashBlock, []⟩
    · simp [storedTx, present]
    · intro known impossible
      rw [present] at impossible
      cases impossible
    · simp [addToWallet, present]
  | some known =>
    apply general (if hashBlock ≠ 0 ∧ hashBlock ≠ known.hashBlock then
      { known with hashBlock := hashBlock } else known)
    · simp only [storedTx, present]
      split_ifs <;> rfl
    · intro other same n
      rw [Option.some.inj (present.symm.trans same)]
      split_ifs <;> rfl
    · simp [addToWallet, present]

/-! ## Whole updates -/

theorem addToWalletIfInvolvingMe_eq (env : Env) (w : CWallet) (tx : CTransaction)
    (hashBlock : Uint256) : addToWalletIfInvolvingMe env w tx hashBlock true =
      if ((w.mapWallet.lookup (getTxHash env tx)).isSome || isMineTx env (withStealth env w tx) tx
        || isFromMe (withStealth env w tx) tx) then
        addToWallet env (withStealth env w tx) tx hashBlock
      else walletUpdateSpent env (withStealth env w tx) tx false := by
  simp [addToWalletIfInvolvingMe, withStealth]

theorem writes_applySync (keyed : Keyed env w) (sync : Sync) :
    Writes (fun hash n => touch env w hash n sync) w (applySync env w sync) ∧
      Keyed env (applySync env w sync) := by
  cases sync with
  | connected hashBlock tx =>
    have found : Keyed env (withStealth env w tx) := keyed
    rw [applySync, addToWalletIfInvolvingMe_eq]
    split_ifs with involved
    · obtain ⟨writes, keyedLast⟩ := writes_addToWallet found
      refine ⟨Writes.congr writes fun hash _ _ n => ?_, keyedLast⟩
      have stored : storedTx env (withStealth env w tx) tx = storedTx env w tx := rfl
      simp only [updateTouch, touch, stored, decide_eq_true_eq]
    · have absent : w.mapWallet.lookup (getTxHash env tx) = none := by
        simp only [Bool.or_eq_true, not_or] at involved
        simpa using involved.1.1
      obtain ⟨writes, keyedLast⟩ := writes_walletUpdateSpent found false
        (fun wtx present => by
          have none : w.mapWallet.lookup (getTxHash env tx) = some wtx := present
          rw [absent] at none
          cases none)
      refine ⟨Writes.congr writes fun hash wtx present n => ?_, keyedLast⟩
      have other : getTxHash env tx ≠ hash := by
        rintro rfl
        have known : w.mapWallet.lookup (getTxHash env tx) = some wtx := present
        rw [absent] at known
        cases known
      simp [updateTouch, touch, storedTx, absent, other]
  | disconnected tx =>
    obtain ⟨writes, txs, _⟩ := setsInput_walletReleaseInput.foldl tx.vin w
    by_cases ours : (isCoinStake tx && isFromMe w tx) = true
    · have shape : applySync env w (.disconnected tx) = tx.vin.foldl walletReleaseInput w := by
        simp only [applySync, ours, if_true, disableTransaction]
      rw [shape]
      refine ⟨writes.congr fun hash _ _ n => ?_, txs.keyed keyed⟩
      simp [touch, ours]
    · have shape : applySync env w (.disconnected tx) = w := by
        simp only [applySync, ours, Bool.false_eq_true, if_false]
      rw [shape]
      refine ⟨(Writes.refl w).congr fun hash _ _ n => ?_, keyed⟩
      simp only [touch, Bool.not_eq_true] at ours ⊢
      simp [ours]

theorem writes_syncs {syncs : List Sync} : ∀ {w : CWallet}, Keyed env w →
    Writes (fun hash n => lastTouch env hash n w syncs) w (syncs.foldl (applySync env) w) := by
  induction syncs with
  | nil => intro w _; exact .refl w
  | cons sync rest ih =>
    intro w keyed
    obtain ⟨first, keyedNext⟩ := writes_applySync keyed sync
    exact first.trans (ih keyedNext)

/-! ## What an update does -/

theorem sameTxs_walletUpdateSpent (env : Env) (w : CWallet) (tx : CTransaction) (fBlock : Bool) :
    SameTxs w (walletUpdateSpent env w tx fBlock) ∧
      (walletUpdateSpent env w tx fBlock).ownsScript = w.ownsScript := by
  obtain ⟨_, spent, owns⟩ := setsInput_walletSpendInput.foldl tx.vin w
  unfold walletUpdateSpent
  dsimp only
  split
  · split
    · exact ⟨spent, owns⟩
    · rename_i wtx present
      exact ⟨spent.trans (sameTxs_updateWtx present (unspendOwn_spec wtx 0).1), owns⟩
  · exact ⟨spent, owns⟩

/-- An update leaves the transactions of the wallet where they are, adds at most the one it
is about, and sets the flags `touch` says. -/
structure Updated (env : Env) (w : CWallet) (hashBlock : Uint256) (tx : CTransaction)
    (w' : CWallet) : Prop where
  owns : w'.ownsScript = (withStealth env w tx).ownsScript
  keyed : Keyed env w'
  writes : Writes (fun hash n => touch env w hash n (.connected hashBlock tx)) w w'
  entries : ∀ hash wtx', w'.mapWallet.lookup hash = some wtx' →
    (∃ wtx, w.mapWallet.lookup hash = some wtx) ∨
      (hash = getTxHash env tx ∧ w.mapWallet.lookup hash = none ∧ wtx'.tx = tx)

theorem addToWallet_new (keyed : Keyed env w) {tx : CTransaction} {hashBlock : Uint256}
    {wtx' : CWalletTx} (absent : w.mapWallet.lookup (getTxHash env tx) = none)
    (present : (addToWallet env w tx hashBlock).mapWallet.lookup (getTxHash env tx) = some wtx') :
    wtx'.tx = tx := by
  have shape : addToWallet env w tx hashBlock =
      walletUpdateSpent env (updateWtx w (getTxHash env tx) ⟨tx, hashBlock, []⟩) tx
        (decide (hashBlock ≠ 0)) := by
    simp [addToWallet, absent]
  have inside := lookup_updateWtx_self w (getTxHash env tx) ⟨tx, hashBlock, []⟩
  have entered : Keyed env (updateWtx w (getTxHash env tx) ⟨tx, hashBlock, []⟩) :=
    keyed_updateWtx keyed rfl
  obtain ⟨writes, _⟩ := writes_walletUpdateSpent entered (decide (hashBlock ≠ 0))
    fun wtx same => by
      rw [inside, Option.some.injEq] at same
      rw [← same]
  obtain ⟨last, lastPresent, sameTx, _⟩ := writes _ _ inside
  rw [shape, lastPresent, Option.some.injEq] at present
  rw [← present, sameTx]

theorem updated_addToWallet (keyed : Keyed env w) (tx : CTransaction) (hashBlock : Uint256) :
    Updated env w hashBlock tx (addToWallet env (withStealth env w tx) tx hashBlock) := by
  have found : Keyed env (withStealth env w tx) := keyed
  obtain ⟨writes, keyedLast⟩ := writes_addToWallet found
  refine ⟨(sameTxs_walletUpdateSpent env _ _ _).2, keyedLast, ?_, fun hash wtx' present => ?_⟩
  · refine Writes.congr writes fun hash _ _ n => ?_
    have stored : storedTx env (withStealth env w tx) tx = storedTx env w tx := rfl
    simp only [updateTouch, touch, stored, decide_eq_true_eq]
  · cases before : w.mapWallet.lookup hash with
    | some wtx => exact Or.inl ⟨wtx, rfl⟩
    | none =>
      -- the entry of the transaction itself is the only one that is written anew
      have own : hash = getTxHash env tx := by
        by_contra other
        have txs : ((addToWallet env (withStealth env w tx) tx hashBlock).mapWallet.lookup
            hash).map CWalletTx.tx = _ := (sameTxs_walletUpdateSpent env _ _ _).1 hash
        rw [present, lookup_updateWtx_ne other] at txs
        change some wtx'.tx = (w.mapWallet.lookup hash).map CWalletTx.tx at txs
        rw [before] at txs
        cases txs
      subst own
      exact Or.inr ⟨rfl, rfl, addToWallet_new found before present⟩

theorem updated_addToWalletIfInvolvingMe (keyed : Keyed env w) (tx : CTransaction)
    (hashBlock : Uint256) :
    Updated env w hashBlock tx (addToWalletIfInvolvingMe env w tx hashBlock true) := by
  obtain ⟨writes, keyedLast⟩ := writes_applySync keyed (.connected hashBlock tx)
  have added := updated_addToWallet keyed tx hashBlock
  have ignored := sameTxs_walletUpdateSpent env (withStealth env w tx) tx false
  refine ⟨?_, keyedLast, writes, ?_⟩
  · rw [addToWalletIfInvolvingMe_eq]
    split
    · exact added.owns
    · exact ignored.2
  · rw [addToWalletIfInvolvingMe_eq]
    split
    · exact added.entries
    · intro hash wtx' present
      have txs := ignored.1 hash
      rw [present] at txs
      obtain ⟨wtx, known, _⟩ := Option.map_eq_some_iff.mp txs.symm
      exact Or.inl ⟨wtx, known⟩

section Updated
variable {hashBlock : Uint256} {wtx' : CWalletTx} (updated : Updated env w hashBlock tx w')
include updated

theorem Updated.entry (present' : w'.mapWallet.lookup hash = some wtx') :
    (∃ wtx, w.mapWallet.lookup hash = some wtx ∧ wtx'.tx = wtx.tx) ∨
      (hash = getTxHash env tx ∧ w.mapWallet.lookup hash = none ∧ wtx'.tx = tx) := by
  rcases updated.entries hash wtx' present' with ⟨wtx, present⟩ | fresh
  · obtain ⟨last, lastPresent, same, _⟩ := updated.writes hash wtx present
    rw [lastPresent, Option.some.injEq] at present'
    exact Or.inl ⟨wtx, present, present' ▸ same⟩
  · exact Or.inr fresh

theorem Updated.stored (present' : w'.mapWallet.lookup (getTxHash env tx) = some wtx') :
    wtx'.tx = storedTx env w tx := by
  rcases updated.entry present' with ⟨wtx, present, same⟩ | ⟨_, absent, same⟩
  · simp only [storedTx, present, same]
  · simp only [storedTx, absent, same]

theorem Updated.mine : isMine w' = isMine (withStealth env w tx) := by
  funext txout
  rw [isMine, isMine, updated.owns]

end Updated

/-! ## Branches

The flags after some blocks were disconnected and others connected, read off their transactions
and the wallet before. -/

/-- The flag a connected transaction gives to an output of the wallet. -/
def mark (env : Env) (hash : Uint256) (n : Nat) (hashBlock : Uint256) (tx : CTransaction) :
    Option Bool :=
  if hashBlock ≠ 0 ∧ getTxHash env tx = hash then some false
  else if namesOutput tx.vin hash n then some true
  else none

/-- The last one among the connected transactions.  The scripts of the wallet grow by the stealth
outputs it finds in them. -/
def lastMark (env : Env) (hash : Uint256) (n : Nat) (txout : CTxOut) :
    (CScript → Bool) → List (Uint256 × CTransaction) → Option Bool
  | _, [] => none
  | owned, (hashBlock, tx) :: rest =>
    (lastMark env hash n txout (env.findStealthTransactions tx owned) rest).or
      (if env.findStealthTransactions tx owned txout.scriptPubKey then mark env hash n hashBlock tx
      else none)

/-- A coinstake of the wallet among the transactions spends the output. -/
def Released (w : CWallet) (gone : List CTransaction) (hash : Uint256) (n : Nat) : Prop :=
  ownOutput w hash n = true ∧ ∃ tx ∈ gone, isCoinStake tx = true ∧ isFromMe w tx = true ∧
    namesOutput tx.vin hash n = true

/-- Every output has the flag that the last of the connected transactions gives to it.  If none
gives one, it is unspent or no disconnected coinstake releases it. -/
def KeepsFlags (env : Env) (w : CWallet) (gone : List CTransaction)
    (joined : List (Uint256 × CTransaction)) : Prop :=
  ∀ hash wtx, w.mapWallet.lookup hash = some wtx → ∀ n txout, wtx.tx.vout[n]? = some txout →
    (∀ flag, lastMark env hash n txout w.ownsScript joined = some flag → isSpent wtx n = flag) ∧
      (lastMark env hash n txout w.ownsScript joined = none → Released w gone hash n →
        isSpent wtx n = false)

/-- The transactions of the wallet are known and stand under their hashes. -/
def KnownWallet (env : Env) (Known : CTransaction → Prop) (w : CWallet) : Prop :=
  ∀ hash wtx, w.mapWallet.lookup hash = some wtx → getTxHash env wtx.tx = hash ∧ Known wtx.tx

theorem KnownWallet.keyed {Known : CTransaction → Prop} (known : KnownWallet env Known w) :
    Keyed env w :=
  fun hash wtx present => (known hash wtx present).1

theorem lastTouch_append {n : Nat} {first second : List Sync} :
    ∀ w : CWallet, lastTouch env hash n w (first ++ second) =
      (lastTouch env hash n (first.foldl (applySync env) w) second).or
        (lastTouch env hash n w first) := by
  induction first with
  | nil => intro w; simp [lastTouch]
  | cons sync first ih =>
    intro w
    simp only [List.cons_append, lastTouch, ih, List.foldl_cons, Option.or_assoc]

theorem sameTxs_disconnected (env : Env) (w : CWallet) (tx : CTransaction) :
    SameTxs w (applySync env w (.disconnected tx)) ∧
      (applySync env w (.disconnected tx)).ownsScript = w.ownsScript := by
  obtain ⟨_, txs, owns⟩ := setsInput_walletReleaseInput.foldl tx.vin w
  simp only [applySync, disableTransaction]
  split_ifs
  · exact ⟨txs, owns⟩
  · exact ⟨fun _ => rfl, rfl⟩

theorem sameTxs_gone (env : Env) (gone : List CTransaction) : ∀ w : CWallet,
    SameTxs w ((gone.map .disconnected).foldl (applySync env) w) ∧
      ((gone.map .disconnected).foldl (applySync env) w).ownsScript = w.ownsScript := by
  induction gone with
  | nil => intro w; exact ⟨fun _ => rfl, rfl⟩
  | cons tx gone ih =>
    intro w
    obtain ⟨txs, owns⟩ := sameTxs_disconnected env w tx
    obtain ⟨later, owns'⟩ := ih (applySync env w (.disconnected tx))
    exact ⟨txs.trans later, owns'.trans owns⟩

/-- Disconnected transactions can only release outputs. -/
theorem lastTouch_disconnected {n : Nat} (gone : List CTransaction) :
    ∀ (w : CWallet) (flag : Bool), lastTouch env hash n w (gone.map .disconnected) = some flag ↔
      flag = false ∧ Released w gone hash n := by
  induction gone with
  | nil => intro w flag; simp [lastTouch, Released]
  | cons tx gone ih =>
    intro w flag
    obtain ⟨txs, owns⟩ := sameTxs_disconnected env w tx
    have here : touch env w hash n (.disconnected tx) = some flag ↔ flag = false ∧
        ownOutput w hash n = true ∧ isCoinStake tx = true ∧ isFromMe w tx = true ∧
        namesOutput tx.vin hash n = true := by
      simp only [touch, Bool.and_eq_true]
      split_ifs with all
      · simp [all, eq_comm]
      · simp only [false_iff]
        tauto
    have rest : ∀ flag, lastTouch env hash n (applySync env w (.disconnected tx))
        (gone.map .disconnected) = some flag ↔ flag = false ∧ Released w gone hash n := by
      intro flag
      have moved := ih (applySync env w (.disconnected tx)) flag
      rw [Released, txs.ownOutput owns, txs.isFromMe owns] at moved
      exact moved
    have split : Released w (tx :: gone) hash n ↔ Released w gone hash n ∨
        ownOutput w hash n = true ∧ isCoinStake tx = true ∧ isFromMe w tx = true ∧
          namesOutput tx.vin hash n = true := by
      rw [Released, Released, List.exists_mem_cons_iff, and_or_left, or_comm]
    rw [List.map_cons, lastTouch, Option.or_eq_some_iff, here, rest, split]
    constructor
    · tauto
    · rintro ⟨rfl, released | last⟩
      · exact Or.inl ⟨rfl, released⟩
      · cases later : lastTouch env hash n (applySync env w (.disconnected tx))
            (gone.map .disconnected) with
        | none => exact Or.inr ⟨rfl, rfl, last⟩
        | some flag => exact Or.inl ⟨rfl, ((rest flag).mp later).2⟩

section Known
variable {Known : CTransaction → Prop} {hashBlock : Uint256} {n : Nat} {txout : CTxOut}
  {gone : List CTransaction} {joined : List (Uint256 × CTransaction)}
variable (distinct : ∀ a b, Known a → Known b → getTxHash env a = getTxHash env b → a.vin = b.vin)

theorem KnownWallet.connected (known : KnownWallet env Known w) {tx : CTransaction}
    (txKnown : Known tx) : KnownWallet env Known (applySync env w (.connected hashBlock tx)) := by
  have updated := updated_addToWalletIfInvolvingMe known.keyed tx hashBlock
  intro hash wtx present
  rcases updated.entry present with ⟨old, oldPresent, same⟩ | ⟨rfl, _, same⟩
  · exact same ▸ known hash old oldPresent
  · rw [same]
    exact ⟨rfl, txKnown⟩

theorem KnownWallet.disconnected (known : KnownWallet env Known w) :
    KnownWallet env Known ((gone.map .disconnected).foldl (applySync env) w) := by
  intro hash wtx present
  have same := (sameTxs_gone env gone w).1 hash
  rw [present] at same
  obtain ⟨old, oldPresent, equal⟩ := Option.map_eq_some_iff.mp same.symm
  exact equal ▸ known hash old oldPresent

include distinct

theorem KnownWallet.storedTx_vin (known : KnownWallet env Known w) {tx : CTransaction}
    (txKnown : Known tx) : (storedTx env w tx).vin = tx.vin := by
  unfold storedTx
  split
  · rfl
  · rename_i copy copyPresent
    obtain ⟨sameHash, copyKnown⟩ := known _ copy copyPresent
    exact distinct _ _ copyKnown txKnown sameHash

/-- Connected transactions mark an output as `lastMark` says. -/
theorem lastTouch_connected (joined : List (Uint256 × CTransaction)) :
    ∀ w : CWallet, KnownWallet env Known w →
      (∀ c ∈ joined, Known c.2) →
      (∃ wtx, w.mapWallet.lookup hash = some wtx ∧ wtx.tx.vout[n]? = some txout) →
      lastTouch env hash n w (joined.map fun c => .connected c.1 c.2) =
        lastMark env hash n txout w.ownsScript joined := by
  induction joined with
  | nil => intro w _ _ _; rfl
  | cons c joined ih =>
    obtain ⟨hashBlock, tx⟩ := c
    rintro w known branch ⟨wtx, present, outAt⟩
    obtain ⟨txKnown, later⟩ := List.forall_mem_cons.mp branch
    have updated := updated_addToWalletIfInvolvingMe known.keyed tx hashBlock
    have own : ownOutput (withStealth env w tx) hash n =
        env.findStealthTransactions tx w.ownsScript txout.scriptPubKey := by
      have found : (withStealth env w tx).mapWallet.lookup hash = some wtx := present
      rw [ownOutput_eq found, outAt]
      rfl
    obtain ⟨wtx', present', kept, _⟩ := updated.writes hash wtx present
    have rest := ih (applySync env w (.connected hashBlock tx)) (known.connected txKnown) later
      ⟨wtx', present', kept ▸ outAt⟩
    have owns : (applySync env w (.connected hashBlock tx)).ownsScript =
        env.findStealthTransactions tx w.ownsScript := updated.owns
    rw [List.map_cons, lastTouch, rest, owns, lastMark]
    congr 1
    simp only [touch, own, known.storedTx_vin distinct txKnown, mark]
    cases env.findStealthTransactions tx w.ownsScript txout.scriptPubKey <;> simp

variable (known : KnownWallet env Known w) (branch : ∀ c ∈ joined, Known c.2)
include known branch

/-- The connected transactions have the last word. -/
theorem lastTouch_branches {wtx : CWalletTx} (present : w.mapWallet.lookup hash = some wtx)
    (outAt : wtx.tx.vout[n]? = some txout) : lastTouch env hash n w
      (gone.map Sync.disconnected ++ joined.map fun c => Sync.connected c.1 c.2) =
    (lastMark env hash n txout w.ownsScript joined).or
      (lastTouch env hash n w (gone.map .disconnected)) := by
  obtain ⟨txs, owns⟩ := sameTxs_gone env gone w
  have same := txs hash
  rw [present] at same
  obtain ⟨wtx', present', equal⟩ := Option.map_eq_some_iff.mp same
  rw [lastTouch_append, lastTouch_connected distinct joined _ known.disconnected branch
    ⟨wtx', present', equal ▸ outAt⟩, owns]

/-- The flags are the same after the blocks of the two branches exactly when the transactions in
them keep them. -/
theorem sameFlags_iff_keepsFlags : SameFlags w
    ((gone.map Sync.disconnected ++ joined.map fun c => Sync.connected c.1 c.2).foldl
      (applySync env) w) ↔ KeepsFlags env w gone joined := by
  rw [(writes_syncs known.keyed).sameFlags_iff]
  refine forall_congr' fun hash => forall_congr' fun wtx => forall_congr' fun present =>
    forall_congr' fun n => ?_
  constructor
  · intro restored txout outAt
    have flag := restored (List.getElem?_eq_some_iff.mp outAt).1
    rw [lastTouch_branches distinct known branch present outAt] at flag
    refine ⟨fun value marked => ?_, fun unmarked released => ?_⟩
    · rw [marked, Option.some_or] at flag
      have same : value = isSpent wtx n := by simpa using flag
      exact same.symm
    · have touched : lastTouch env hash n w (gone.map .disconnected) = some false :=
        (lastTouch_disconnected gone w false).mpr ⟨rfl, released⟩
      rw [unmarked, Option.none_or, touched] at flag
      simpa using flag
  · intro keeps bound
    have outAt := List.getElem?_eq_getElem bound
    obtain ⟨marked, unmarked⟩ := keeps _ outAt
    rw [lastTouch_branches distinct known branch present outAt]
    cases value : lastMark env hash n _ w.ownsScript joined with
    | some flag => exact Or.inr (congrArg some (marked flag value).symm)
    | none =>
      rw [Option.none_or]
      cases released : lastTouch env hash n w (gone.map .disconnected) with
      | none => exact Or.inl rfl
      | some flag =>
        obtain ⟨rfl, freed⟩ := (lastTouch_disconnected gone w flag).mp released
        exact Or.inr (congrArg some (unmarked value freed).symm)

end Known

end SynergyLedger.WalletFlags
