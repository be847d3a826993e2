import SynergyFormal.Primitives.Block
import Mathlib.Data.List.AList

/-!
# Wallet updates made while blocks are connected and disconnected

`SyncWithWallets` is called from `ConnectBlock` and `DisconnectBlock` and edits the
registered wallets at once, outside the database transaction.  The model keeps what
the spent flags depend on: the wallet transactions, their flags and the scripts the
wallet owns.  Merkle branches, times, accounts and notifications are left out, and
writes of the wallet file succeed.
-/

set_option autoImplicit false

namespace SynergyLedger.Wallet

open SynergyData
open Script Transaction Block

structure CWalletTx where
  tx : CTransaction
  hashBlock : Uint256
  vfSpent : List Bool

structure CWallet where
  mapWallet : AList (fun _ : Uint256 => CWalletTx)
  ownsScript : CScript → Bool

/-! ## Spent flags -/

def resize (flags : List Bool) (size : Nat) : List Bool :=
  flags.take size ++ List.replicate (size - flags.length) false

def isSpent (wtx : CWalletTx) (nOut : Nat) : Bool := (wtx.vfSpent[nOut]?).getD false

def setSpent (wtx : CWalletTx) (nOut : Nat) (fSpent : Bool) : CWalletTx :=
  { wtx with vfSpent := (resize wtx.vfSpent wtx.tx.vout.length).set nOut fSpent }

def markSpent (wtx : CWalletTx) (nOut : Nat) : CWalletTx := setSpent wtx nOut true

def markUnspent (wtx : CWalletTx) (nOut : Nat) : CWalletTx := setSpent wtx nOut false

theorem isSpent_setSpent {wtx : CWalletTx} {nOut m : Nat} {fSpent : Bool}
    (bound : m < wtx.tx.vout.length) :
    isSpent (setSpent wtx nOut fSpent) m = if m = nOut then fSpent else isSpent wtx m := by
  have resized : ((resize wtx.vfSpent wtx.tx.vout.length)[m]?).getD false = isSpent wtx m := by
    by_cases short : m < wtx.vfSpent.length
    · have inside : m < (wtx.vfSpent.take wtx.tx.vout.length).length := by
        rw [List.length_take]; omega
      simp [resize, isSpent, List.getElem?_append_left inside, bound]
    · have outside : (wtx.vfSpent.take wtx.tx.vout.length).length ≤ m := by
        rw [List.length_take]; omega
      have absent : wtx.vfSpent[m]? = none := List.getElem?_eq_none (by omega)
      rw [resize, isSpent, List.getElem?_append_right outside, absent, List.getElem?_replicate]
      split <;> rfl
  have size : m < (resize wtx.vfSpent wtx.tx.vout.length).length := by
    simp only [resize, List.length_append, List.length_take, List.length_replicate]
    omega
  by_cases same : m = nOut
  · subst same
    simp [isSpent, setSpent, size]
  · have other : nOut ≠ m := fun equal => same equal.symm
    simp only [same, if_false, ← resized]
    simp [isSpent, setSpent, List.getElem?_set_ne other]

/-! ## Ownership -/

def isMine (w : CWallet) (txout : CTxOut) : Bool := w.ownsScript txout.scriptPubKey

/-- The own output an input refers to, with the wallet transaction that holds it. -/
def ownPrevout (w : CWallet) (o : COutPoint) : Option (CWalletTx × CTxOut) :=
  match w.mapWallet.lookup o.hash with
  | none => none
  | some prev =>
    match prev.tx.vout[o.n.toNat]? with
    | none => none
    | some txout => if isMine w txout then some (prev, txout) else none

def isMineTx (env : Env) (w : CWallet) (tx : CTransaction) : Bool :=
  tx.vout.any fun txout =>
    isMine w txout && decide (env.nMinimumInputValue ≤ txout.nValue.toInt)

def getDebit (w : CWallet) (tx : CTransaction) : Int :=
  (tx.vin.map fun txin => ((ownPrevout w txin.prevout).map fun p => p.2.nValue.toInt).getD 0).sum

def isFromMe (w : CWallet) (tx : CTransaction) : Bool := decide (0 < getDebit w tx)

/-! ## Updates -/

def updateWtx (w : CWallet) (hash : Uint256) (wtx : CWalletTx) : CWallet :=
  { w with mapWallet := w.mapWallet.insert hash wtx }

def walletSpendInput (w : CWallet) (txin : CTxIn) : CWallet :=
  match ownPrevout w txin.prevout with
  | none => w
  | some (wtx, _) =>
    if isSpent wtx txin.prevout.n.toNat then w
    else updateWtx w txin.prevout.hash (markSpent wtx txin.prevout.n.toNat)

/-- The outputs of a transaction of a block that the wallet owns become unspent. -/
def unspendOwn (w : CWallet) (wtx : CWalletTx) : List CTxOut → Nat → CWalletTx
  | [], _ => wtx
  | txout :: rest, n =>
    unspendOwn w (if isMine w txout then markUnspent wtx n else wtx) rest (n + 1)

def walletUpdateSpent (env : Env) (w : CWallet) (tx : CTransaction) (fBlock : Bool) : CWallet :=
  let spent := tx.vin.foldl walletSpendInput w
  if fBlock then
    match spent.mapWallet.lookup (getTxHash env tx) with
    | none => spent
    | some wtx => updateWtx spent (getTxHash env tx) (unspendOwn spent wtx tx.vout 0)
  else spent

def addToWallet (env : Env) (w : CWallet) (tx : CTransaction) (hashBlock : Uint256) : CWallet :=
  let hash := getTxHash env tx
  let wtx : CWalletTx :=
    match w.mapWallet.lookup hash with
    | none => ⟨tx, hashBlock, []⟩
    | some known =>
      if hashBlock ≠ 0 ∧ hashBlock ≠ known.hashBlock then { known with hashBlock := hashBlock }
      else known
  walletUpdateSpent env (updateWtx w hash wtx) wtx.tx (decide (hashBlock ≠ 0))

def addToWalletIfInvolvingMe (env : Env) (w : CWallet) (tx : CTransaction) (hashBlock : Uint256)
    (fUpdate : Bool) : CWallet :=
  let fExisted := (w.mapWallet.lookup (getTxHash env tx)).isSome
  if fExisted && !fUpdate then w
  else
    let found := { w with ownsScript := env.findStealthTransactions tx w.ownsScript }
    if fExisted || isMineTx env found tx || isFromMe found tx then
      addToWallet env found tx hashBlock
    else walletUpdateSpent env found tx false

def walletReleaseInput (w : CWallet) (txin : CTxIn) : CWallet :=
  match ownPrevout w txin.prevout with
  | none => w
  | some (prev, _) => updateWtx w txin.prevout.hash (markUnspent prev txin.prevout.n.toNat)

/-- Refund the inputs of an own coinstake that leaves the chain. -/
def disableTransaction (w : CWallet) (tx : CTransaction) : CWallet :=
  if isCoinStake tx && isFromMe w tx then tx.vin.foldl walletReleaseInput w else w

/-- `SyncWithWallets(tx, pblock, true)`, the call of `ConnectBlock`. -/
def syncConnect (env : Env) (hashBlock : Uint256) (wallets : List CWallet) (tx : CTransaction) :
    List CWallet :=
  wallets.map fun w => addToWalletIfInvolvingMe env w tx hashBlock true

/-- `SyncWithWallets(tx, pblock, false, false)`, the call of `DisconnectBlock`. -/
def syncDisconnect (wallets : List CWallet) (tx : CTransaction) : List CWallet :=
  if isCoinStake tx then wallets.map fun w => if isFromMe w tx then disableTransaction w tx else w
  else wallets

end SynergyLedger.Wallet
