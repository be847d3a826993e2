import SynergyFormal.Ledger.WalletFlags
import SynergyFormal.Ledger.ConnectBlock
import SynergyFormal.Lib.Session

/-!
# Coins the wallet has spent

A wallet hears of a transaction when it commits one of its own, when a transaction enters
the memory pool and when a block that holds it is connected.  Each time the outputs the
transaction spends are marked; a block also clears the marks of the transaction's own
outputs, without a look at who spends them.

`Spends` reads a wallet beside the set of the transactions that are in the pool or in the
active chain, and `NoneOffered` says that an own output which such a transaction of the
wallet spends is marked.  `Allowed` names the events that break it: the confirmation, or
the first sight, of a transaction that is already spent, and a stealth key that comes after
the spend.
-/

set_option autoImplicit false

namespace SynergyWallet.SpentCoins

open SynergyData SynergyLedger
open Option SynergyLib.Session Script Transaction Block Wallet WalletFlags ConnectBlock

/-! ## CommitTransaction -/

/-- A coin is marked.  For an unknown transaction or output `MarkSpent` throws. -/
def commitInput (w : CWallet) (txin : CTxIn) : Option CWallet :=
  match w.mapWallet.lookup txin.prevout.hash with
  | none => none
  | some coin =>
    if txin.prevout.n.toNat < coin.tx.vout.length then
      some (updateWtx w txin.prevout.hash (markSpent coin txin.prevout.n.toNat))
    else none

def commitTransaction (env : Env) (w : CWallet) (tx : CTransaction) : Option CWallet :=
  tx.vin.foldlM commitInput (addToWallet env (withStealth env w tx) tx 0)

/-! ## Events -/

/-- `live` are the hashes of the transactions in the pool or in the active chain. -/
structure View where
  wallet : CWallet
  live : Finset Uint256

inductive Event where
  /-- `accepted` is the answer of `AcceptToMemoryPool`. -/
  | commit (tx : CTransaction) (accepted : Bool)
  | pooled (tx : CTransaction)
  | connected (hashBlock : Uint256) (tx : CTransaction)
  /-- The transaction leaves the pool and the chain; the wallet is not told. -/
  | gone (tx : CTransaction)

def handle (env : Env) (v : View) : Event → Option View
  | .commit tx accepted =>
    (commitTransaction env v.wallet tx).map fun wallet =>
      ⟨wallet, if accepted then insert (getTxHash env tx) v.live else v.live⟩
  | .pooled tx =>
    some ⟨addToWalletIfInvolvingMe env v.wallet tx 0 true, insert (getTxHash env tx) v.live⟩
  | .connected hashBlock tx =>
    some ⟨addToWalletIfInvolvingMe env v.wallet tx hashBlock true,
      insert (getTxHash env tx) v.live⟩
  | .gone tx => some { v with live := v.live.erase (getTxHash env tx) }

/-- A wallet transaction in the pool or the chain, other than `hash` itself, spends the
output. -/
def Spends (v : View) (hash : Uint256) (n : ℕ) : Prop :=
  ∃ other child, v.wallet.mapWallet.lookup other = some child ∧ other ≠ hash ∧ other ∈ v.live ∧
    namesOutput child.tx.vin hash n = true

def NoneOffered (v : View) : Prop :=
  ∀ hash wtx, v.wallet.mapWallet.lookup hash = some wtx → ∀ n,
    ownOutput v.wallet hash n = true → Spends v hash n → isSpent wtx n = true

/-! ## The condition -/

/-- The event clears the marks of the transaction's outputs: it is in a block, or new to
the wallet. -/
def Clears (env : Env) (w : CWallet) (hashBlock : Uint256) (tx : CTransaction) : Prop :=
  hashBlock ≠ 0 ∨ w.mapWallet.lookup (getTxHash env tx) = none

def Unspent (env : Env) (v : View) (hashBlock : Uint256) (tx : CTransaction) : Prop :=
  Clears env v.wallet hashBlock tx → ∀ n txout,
    (storedTx env v.wallet tx).vout[n]? = some txout →
    isMine (withStealth env v.wallet tx) txout = true → ¬Spends v (getTxHash env tx) n

/-- No key found in the transaction belongs to an output that is spent already. -/
def OldKeys (env : Env) (v : View) (tx : CTransaction) : Prop :=
  ∀ hash n, ownOutput (withStealth env v.wallet tx) hash n = true →
    ownOutput v.wallet hash n = false → ¬Spends v hash n

structure Harmless (env : Env) (v : View) (hashBlock : Uint256) (tx : CTransaction) : Prop where
  unspent : Unspent env v hashBlock tx
  oldKeys : OldKeys env v tx

def Allowed (env : Env) (v : View) : Event → Prop
  | .commit tx _ => Harmless env v 0 tx
  | .pooled tx => Harmless env v 0 tx
  | .connected hashBlock tx => Harmless env v hashBlock tx
  | .gone _ => True

/-! ## What an update does -/

variable {n : ℕ} {w third second first w' : CWallet} {wtx : CWalletTx} {hash : Uint256}
  {txin : CTxIn} {env : Env} {live : Finset Uint256} {v next : View} {event : Event}

/-! ## Keeping the coins marked -/

section Steps
variable {hashBlock : Uint256} {tx : CTransaction}

section Updated
variable (updated : Updated env v.wallet hashBlock tx w')
include updated

theorem spends_of_updated {other : Uint256} {child : CWalletTx}
    (present : w'.mapWallet.lookup other = some child) (different : other ≠ hash)
    (isLive : other ∈ insert (getTxHash env tx) v.live) (elsewhere : other ≠ getTxHash env tx)
    (named : namesOutput child.tx.vin hash n = true) : Spends v hash n := by
  rcases updated.entry present with ⟨old, oldPresent, same⟩ | ⟨self, _⟩
  · exact ⟨other, old, oldPresent, different, Finset.mem_of_mem_insert_of_ne isLive elsewhere,
      same ▸ named⟩
  · exact absurd self elsewhere

end Updated

theorem NoneOffered.updated (before : NoneOffered v)
    (updated : Updated env v.wallet hashBlock tx w') (harmless : Harmless env v hashBlock tx) :
    NoneOffered ⟨w', insert (getTxHash env tx) v.live⟩ := by
  rintro hash wtx' present' n own ⟨other, child, childPresent, different, isLive, named⟩
  dsimp only at present' own childPresent isLive
  have mine : (wtx'.tx.vout[n]?).any (isMine (withStealth env v.wallet tx)) = true := by
    rw [ownOutput_eq present', updated.mine] at own
    exact own
  obtain ⟨txout, outAt, isMineOut⟩ := (Option.any_eq_true _ _).mp mine
  -- an output of the transaction itself loses its mark, and has no spender by hypothesis
  have kept : ¬(hash = getTxHash env tx ∧ Clears env v.wallet hashBlock tx) := by
    rintro ⟨rfl, clears⟩
    rw [updated.stored present'] at outAt
    exact harmless.unspent clears n txout outAt isMineOut
      (spends_of_updated updated childPresent different isLive different named)
  rcases updated.entry present' with ⟨wtx, present, same⟩ | ⟨self, absent, _⟩
  · obtain ⟨last, lastPresent, _, flags⟩ := updated.writes hash wtx present
    obtain rfl : last = wtx' := some.inj (lastPresent.symm.trans present')
    have bound : n < wtx.tx.vout.length := by
      rw [← same]
      exact (List.getElem?_eq_some_iff.mp outAt).1
    have ownFound : ownOutput (withStealth env v.wallet tx) hash n = true := by
      have found : (withStealth env v.wallet tx).mapWallet.lookup hash = some wtx := present
      rw [ownOutput_eq found, ← same]
      exact mine
    have notCleared : ¬(hashBlock ≠ 0 ∧ getTxHash env tx = hash) := fun cleared =>
      kept ⟨cleared.2.symm, Or.inl cleared.1⟩
    rw [flags n bound]
    simp only [touch, ownFound, Bool.not_true, Bool.false_eq_true, if_false, notCleared]
    split
    · rfl
    · rename_i unnamed
      have elsewhere : other ≠ getTxHash env tx := by
        rintro rfl
        rw [updated.stored childPresent] at named
        exact unnamed named
      have spends := spends_of_updated updated childPresent different isLive elsewhere named
      apply before hash wtx present n ?_ spends
      by_contra foreign
      exact harmless.oldKeys hash n ownFound (by simpa using foreign) spends
  · exact absurd ⟨self, Or.inr (self ▸ absent)⟩ kept

end Steps

/-! ## Committed transactions -/

/-- Marks are added and nothing else changes. -/
structure Raised (w w' : CWallet) : Prop where
  owns : w'.ownsScript = w.ownsScript
  entries : ∀ hash wtx', w'.mapWallet.lookup hash = some wtx' →
    ∃ wtx, w.mapWallet.lookup hash = some wtx ∧ wtx'.tx = wtx.tx ∧
      ∀ n, n < wtx.tx.vout.length → isSpent wtx n = true → isSpent wtx' n = true

theorem Raised.refl (w : CWallet) : Raised w w :=
  ⟨rfl, fun _ wtx present => ⟨wtx, present, rfl, fun _ _ spent => spent⟩⟩

theorem Raised.trans (one : Raised first second) (two : Raised second third) :
    Raised first third := by
  refine ⟨two.owns.trans one.owns, fun hash wtx'' present'' => ?_⟩
  obtain ⟨wtx', present', same', flags'⟩ := two.entries hash wtx'' present''
  obtain ⟨wtx, present, same, flags⟩ := one.entries hash wtx' present'
  refine ⟨wtx, present, same'.trans same, fun n bound spent => ?_⟩
  exact flags' n (same ▸ bound) (flags n bound spent)

theorem raised_commitInput (run : commitInput w txin = some w') : Raised w w' := by
  unfold commitInput at run
  split at run
  · cases run
  · rename_i coin present
    split at run
    · cases run
      refine ⟨rfl, fun hash wtx' present' => ?_⟩
      by_cases same : hash = txin.prevout.hash
      · subst same
        rw [lookup_updateWtx_self, some.injEq] at present'
        subst present'
        refine ⟨coin, present, rfl, fun n bound spent => ?_⟩
        rw [markSpent, isSpent_setSpent bound]
        split
        · rfl
        · exact spent
      · rw [lookup_updateWtx_ne same] at present'
        exact ⟨wtx', present', rfl, fun _ _ spent => spent⟩
    · cases run

theorem raised_commitInputs {vin : List CTxIn} :
    ∀ {w w' : CWallet}, vin.foldlM commitInput w = some w' → Raised w w' := by
  induction vin with
  | nil =>
    intro w w' run
    cases run
    exact .refl w
  | cons txin vin ih =>
    intro w w' run
    obtain ⟨next, moved, rest⟩ := bind_eq_some_iff.mp run
    exact (raised_commitInput moved).trans (ih rest)

theorem Keyed.raised (keyed : Keyed env w) (raised : Raised w w') : Keyed env w' := by
  intro hash wtx' present'
  obtain ⟨wtx, present, same, _⟩ := raised.entries hash wtx' present'
  rw [same]
  exact keyed hash wtx present

theorem NoneOffered.raised (before : NoneOffered ⟨w, live⟩) (raised : Raised w w') :
    NoneOffered ⟨w', live⟩ := by
  rintro hash wtx' present' n own ⟨other, child', childPresent', different, isLive, named⟩
  obtain ⟨wtx, present, same, flags⟩ := raised.entries hash wtx' present'
  obtain ⟨child, childPresent, sameChild, _⟩ := raised.entries other child' childPresent'
  have mine : isMine w' = isMine w := by
    funext txout
    rw [isMine, isMine, raised.owns]
  dsimp only at present' own childPresent'
  rw [ownOutput_eq present', same, mine] at own
  obtain ⟨txout, outAt, _⟩ := (Option.any_eq_true _ _).mp own
  rw [← ownOutput_eq present] at own
  apply flags n (List.getElem?_eq_some_iff.mp outAt).1
  exact before hash wtx present n own
    ⟨other, child, childPresent, different, isLive, sameChild ▸ named⟩

theorem NoneOffered.subset {fewer : Finset Uint256} (before : NoneOffered ⟨w, live⟩)
    (subset : fewer ⊆ live) : NoneOffered ⟨w, fewer⟩ := by
  rintro hash wtx present n own ⟨other, child, childPresent, different, isLive, named⟩
  exact before hash wtx present n own ⟨other, child, childPresent, different, subset isLive, named⟩

/-! ## Runs -/

theorem handle_keeps (keyed : Keyed env v.wallet) (before : NoneOffered v)
    (allowed : Allowed env v event) (run : handle env v event = some next) :
    Keyed env next.wallet ∧ NoneOffered next := by
  cases event with
  | commit tx accepted =>
    obtain ⟨wallet, committed, rfl⟩ := map_eq_some_iff.mp run
    have updated := updated_addToWallet keyed tx 0
    have raised := raised_commitInputs committed
    refine ⟨Keyed.raised updated.keyed raised, ?_⟩
    apply ((before.updated updated allowed).raised raised).subset
    split
    · exact Finset.Subset.refl _
    · exact Finset.subset_insert _ _
  | pooled tx =>
    cases run
    have updated := updated_addToWalletIfInvolvingMe keyed tx 0
    exact ⟨updated.keyed, before.updated updated allowed⟩
  | connected hashBlock tx =>
    cases run
    have updated := updated_addToWalletIfInvolvingMe keyed tx hashBlock
    exact ⟨updated.keyed, before.updated updated allowed⟩
  | gone tx =>
    cases run
    exact ⟨keyed, before.subset (Finset.erase_subset _ _)⟩

def emptyWallet (ownsScript : CScript → Bool) : CWallet := ⟨∅, ownsScript⟩

/-- In a run of harmless events from an empty wallet no spent coin is offered. -/
theorem spent_coins_never_offered (env : Env) (ownsScript : CScript → Bool)
    (live : Finset Uint256) (v : View)
    (reached : Reached (handle env) (Allowed env) ⟨emptyWallet ownsScript, live⟩ v) :
    NoneOffered v := by
  have keyed : Keyed env (emptyWallet ownsScript) := by
    intro hash wtx present
    cases present
  have nothing : NoneOffered ⟨emptyWallet ownsScript, live⟩ := by
    intro hash wtx present
    cases present
  have kept := reached.invariant (fun v => Keyed env v.wallet ∧ NoneOffered v) ⟨keyed, nothing⟩
    fun _ _ _ inv allowed run => handle_keeps inv.1 inv.2 allowed run
  exact kept.2

/-! ## A payment and a transaction that spends it -/

def paymentTx : CTransaction := toyTx [⟨77, 0⟩] [pay 500000000]

def paymentHash : Uint256 := getTxHash (toyEnv []) paymentTx

def spendingTx : CTransaction := toyTx [⟨paymentHash, 0⟩] [pay 400000000]

def spendingHash : Uint256 := getTxHash (toyEnv []) spendingTx

def listener : View := ⟨emptyWallet fun script => script == [0x51], ∅⟩

/-- No wallet transaction has an input of the given one. -/
def unnamed (w : CWallet) (hash : Uint256) : Bool :=
  w.mapWallet.entries.all fun entry => entry.2.tx.vin.all fun txin => txin.prevout.hash != hash

theorem not_spends_of_unnamed (free : unnamed v.wallet hash = true) : ¬Spends v hash n := by
  rintro ⟨other, child, present, _, _, named⟩
  have member := AList.mem_lookup_iff.mp (mem_def.mpr present)
  obtain ⟨txin, input, here⟩ := List.any_eq_true.mp named
  have apart := List.all_eq_true.mp (List.all_eq_true.mp free _ member) txin input
  simp only [Bool.and_eq_true, beq_iff_eq] at here
  simp [here.1] at apart

def Event.tx : Event → CTransaction
  | .commit tx _ => tx
  | .pooled tx => tx
  | .connected _ tx => tx
  | .gone tx => tx

/-- Events about transactions no one spends from. -/
def carefully (v : View) (event : Event) : Option View :=
  if unnamed v.wallet (getTxHash (toyEnv []) event.tx) then handle (toyEnv []) v event else none

theorem carefully_sound (run : carefully v event = some next) :
    Allowed (toyEnv []) v event ∧ handle (toyEnv []) v event = some next := by
  unfold carefully at run
  split at run
  · rename_i free
    have harmless : ∀ hashBlock, Harmless (toyEnv []) v hashBlock event.tx := by
      intro hashBlock
      refine ⟨fun _ n _ _ _ => not_spends_of_unnamed free, fun hash n own foreign => ?_⟩
      -- this environment knows no stealth keys
      have same : ownOutput v.wallet hash n = true := own
      rw [same] at foreign
      cases foreign
    refine ⟨?_, run⟩
    cases event with
    | gone tx => trivial
    | _ => exact harmless _
  · cases run

theorem spent_coins_never_offered_confirmed : ∃ v,
    Reached (handle (toyEnv [])) (Allowed (toyEnv [])) listener v ∧ Spends v paymentHash 0 ∧
      NoneOffered v := by
  obtain ⟨v, run, isLive, child, present, named⟩ : ∃ v ∈ [.pooled paymentTx,
      .connected 9 paymentTx, .commit spendingTx true].foldlM carefully listener,
        spendingHash ∈ v.live ∧ ∃ child ∈ v.wallet.mapWallet.lookup spendingHash,
          namesOutput child.tx.vin paymentHash 0 = true := by decide +kernel
  have reached : Reached (handle (toyEnv [])) (Allowed (toyEnv [])) listener v :=
    .of_foldlM (fun _ _ _ moved => ⟨_, carefully_sound moved⟩) _ .refl run
  have different : spendingHash ≠ paymentHash := by decide +kernel
  exact ⟨v, reached, ⟨spendingHash, child, present, different, isLive, named⟩,
    spent_coins_never_offered _ _ _ v reached⟩

/-- The payment is spent while it waits in the pool, and its block comes after that. -/
theorem spent_coin_offered : ∃ v,
    Reached (handle (toyEnv [])) (fun _ _ => True) listener v ∧ ¬NoneOffered v := by
  obtain ⟨v, run, own, isLive, ⟨wtx, present, unspent⟩, child, spender, named⟩ :
      ∃ v ∈ [.pooled paymentTx, .commit spendingTx true, .connected 9 paymentTx].foldlM
        (handle (toyEnv [])) listener, ownOutput v.wallet paymentHash 0 = true ∧
        spendingHash ∈ v.live ∧
        (∃ wtx ∈ v.wallet.mapWallet.lookup paymentHash, isSpent wtx 0 = false) ∧
        ∃ child ∈ v.wallet.mapWallet.lookup spendingHash,
          namesOutput child.tx.vin paymentHash 0 = true := by decide +kernel
  refine ⟨v, .of_foldlM (fun _ _ _ moved => ⟨_, trivial, moved⟩) _ .refl run, fun marked => ?_⟩
  have different : spendingHash ≠ paymentHash := by decide +kernel
  have spent := marked paymentHash wtx present 0 own
    ⟨spendingHash, child, spender, different, isLive, named⟩
  rw [unspent] at spent
  cases spent

end SynergyWallet.SpentCoins
