import SynergyFormal.Lib.InverseIndex
import SynergyFormal.Lib.Session
import SynergyFormal.Ledger.Wallet
import SynergyFormal.Pool.PoolIndex

/-!
# Orphan transactions and the `tx` message

A transaction with a missing input waits in `mapOrphanTransactions`;
`mapOrphanTransactionsByPrev` finds the orphans that spend a transaction.  When a message
brings a transaction into the pool, a work queue retries the orphans that spend it, and
the orphans of those that enter with it.  Orphans that entered or turned out invalid are
erased when the queue is empty.

The loop reads `mapOrphanTransactionsByPrev[hashPrev]`, which creates an empty set for a
transaction that no orphan spends, and it passes the transaction of the message, not the
orphan, to `SyncWithWallets`.

* `Worked` is what the loop keeps, and `processTx_cases` what one message does.
* `orphan_maps_exact_iff`: the maps stay exact inverses as long as every transaction that
  enters is spent by a stored orphan.
* `synced_once_iff`: the wallets see each transaction once as long as no orphan follows.

Relaying, the list of requested inventory and misbehaviour scores are left out.
-/

set_option autoImplicit false

namespace SynergyPool.Orphans

open SynergyData SynergyLedger
open SynergyLib.InverseIndex SynergyLib.Session Transaction Block TxDB Inputs Wallet ConnectBlock
  MemPool
open Option hiding or_assoc
open List hiding keys le_antisymm le_trans lookup not_lt

def maxOrphanTransactions : Nat := maxBlockSize / 100
def maxOrphanSize : Nat := 5000

structure TxNode where
  mempool : CTxMemPool
  mapOrphanTransactions : AList (fun _ : Uint256 => CTransaction)
  mapOrphanTransactionsByPrev : AList (fun _ : Uint256 => List Uint256)
  wallets : List CWallet

def prevHashes (tx : CTransaction) : List Uint256 := tx.vin.map fun txin => txin.prevout.hash

/-! ## The maps -/

def storeOrphan (node : TxNode) (hash : Uint256) (tx : CTransaction) : TxNode :=
  { node with
    mapOrphanTransactions := node.mapOrphanTransactions.insert hash tx
    mapOrphanTransactionsByPrev :=
      (prevHashes tx).foldl (enter (· ≤ ·) hash) node.mapOrphanTransactionsByPrev }

def addOrphanTx (env : Env) (node : TxNode) (tx : CTransaction) : TxNode :=
  if (node.mapOrphanTransactions.lookup (getTxHash env tx)).isSome then node
  else if maxOrphanSize < serializeSize tx then node
  else storeOrphan node (getTxHash env tx) tx

def eraseOrphanTx (node : TxNode) (hash : Uint256) : TxNode :=
  match node.mapOrphanTransactions.lookup hash with
  | none => node
  | some tx =>
    { node with
      mapOrphanTransactions := node.mapOrphanTransactions.erase hash
      mapOrphanTransactionsByPrev :=
        (prevHashes tx).foldl (leave hash) node.mapOrphanTransactionsByPrev }

def least : List Uint256 → Option Uint256
  | [] => none
  | key :: rest =>
    match least rest with
    | none => some key
    | some other => some (if key ≤ other then key else other)

/-- `lower_bound(randomhash)`, or `begin()` when that is the end. -/
def evictee (keys : List Uint256) (randomhash : Uint256) : Option Uint256 :=
  match least (keys.filter fun key => randomhash ≤ key) with
  | some key => some key
  | none => least keys

/-- The eviction loop; one unit of fuel is spent per orphan. -/
def evictOrphans (nMaxOrphans : Nat) (getRandHash : Nat → Uint256) : Nat → Nat → TxNode → TxNode
  | 0, _, node => node
  | fuel + 1, nEvicted, node =>
    if nMaxOrphans < node.mapOrphanTransactions.keys.length then
      match evictee node.mapOrphanTransactions.keys (getRandHash nEvicted) with
      | none => node
      | some hash =>
        evictOrphans nMaxOrphans getRandHash fuel (nEvicted + 1) (eraseOrphanTx node hash)
    else node

def limitOrphanTxSize (nMaxOrphans : Nat) (getRandHash : Nat → Uint256) (node : TxNode) : TxNode :=
  evictOrphans nMaxOrphans getRandHash node.mapOrphanTransactions.keys.length 0 node

/-! ## The message -/

/-- A `tx` message with what the handler reads besides the node: the chain, the clock and
the values `GetRandHash` will return. -/
structure TxMessage where
  tx : CTransaction
  tip : ChainTip
  adjustedTime : UInt32
  getRandHash : Nat → Uint256

/-- A default-constructed transaction. -/
def nullTx (message : TxMessage) : CTransaction where
  nVersion := if (lastPowBlock : Int) ≤ message.tip.nBestHeight then 2 else 1
  nTime := message.adjustedTime
  vin := []
  vout := []
  nLockTime := 0
  strTxComment := []
  nProdTypeID := 0

/-- The locals of the handler, and the arguments of `SyncWithWallets` so far. -/
structure Work where
  node : TxNode
  vWorkQueue : List Uint256
  vEraseQueue : List Uint256
  synced : List CTransaction

/-- After a successful `AcceptToMemoryPool`. -/
def accepted (env : Env) (tx : CTransaction) (mempool : CTxMemPool) (hash : Uint256)
    (work : Work) : Work where
  node := { work.node with
    mempool := mempool
    wallets := syncConnect env 0 work.node.wallets tx }
  vWorkQueue := work.vWorkQueue ++ [hash]
  vEraseQueue := work.vEraseQueue ++ [hash]
  synced := work.synced ++ [tx]

/-- What follows the call of `AcceptToMemoryPool` on an orphan.  The wallets are given
`message.tx`. -/
def settleOrphan (env : Env) (message : TxMessage) (orphanTxHash : Uint256)
    (result : AcceptResult × CTxMemPool) (work : Work) : Work :=
  match result.1 with
  | .accepted => accepted env message.tx result.2 orphanTxHash work
  | .rejected true => work
  | .rejected false => { work with vEraseQueue := work.vEraseQueue ++ [orphanTxHash] }

/-- `mapOrphanTransactions[orphanTxHash]` for a missing key. -/
def createOrphan (message : TxMessage) (work : Work) (orphanTxHash : Uint256) : Work :=
  { work with node := { work.node with
    mapOrphanTransactions :=
      work.node.mapOrphanTransactions.insert orphanTxHash (nullTx message) } }

/-- One orphan that spends `hashPrev`. -/
def visitOrphan (env : Env) (message : TxMessage) (work : Work) (orphanTxHash : Uint256) : Work :=
  match work.node.mapOrphanTransactions.lookup orphanTxHash with
  | some orphanTx =>
    settleOrphan env message orphanTxHash
      (accept env message.tip work.node.mempool orphanTx true) work
  | none =>
    settleOrphan env message orphanTxHash
      (accept env message.tip work.node.mempool (nullTx message) true)
      (createOrphan message work orphanTxHash)

def touchPrev (work : Work) (hashPrev : Uint256) : Work :=
  { work with node := { work.node with
    mapOrphanTransactionsByPrev := touch work.node.mapOrphanTransactionsByPrev hashPrev } }

def visitPrev (env : Env) (message : TxMessage) (work : Work) (hashPrev : Uint256) : Work :=
  (subscript work.node.mapOrphanTransactionsByPrev hashPrev).foldl (visitOrphan env message)
    (touchPrev work hashPrev)

/-- The loop over `vWorkQueue`, which grows while it runs; `none` when the fuel is gone. -/
def workLoop (env : Env) (message : TxMessage) : Nat → Nat → Work → Option Work
  | 0, i, work => if i < work.vWorkQueue.length then none else some work
  | fuel + 1, i, work =>
    match work.vWorkQueue[i]? with
    | none => some work
    | some hashPrev => workLoop env message fuel (i + 1) (visitPrev env message work hashPrev)

def startWork (env : Env) (node : TxNode) (message : TxMessage) : Work :=
  accepted env message.tx (accept env message.tip node.mempool message.tx true).2
    (getTxHash env message.tx) ⟨node, [], [], []⟩

/-- The node after the message and the transactions passed to `SyncWithWallets`. -/
def processTx (env : Env) (node : TxNode) (message : TxMessage) :
    Option (TxNode × List CTransaction) :=
  match (accept env message.tip node.mempool message.tx true).1 with
  | .accepted =>
    (workLoop env message (node.mapOrphanTransactions.keys.length + 1) 0
      (startWork env node message)).map
      fun work => (work.vEraseQueue.foldl eraseOrphanTx work.node, work.synced)
  | .rejected true =>
    some (limitOrphanTxSize maxOrphanTransactions message.getRandHash
      (addOrphanTx env node message.tx), [])
  | .rejected false => some (node, [])

def processAll (env : Env) : List TxMessage → TxNode → Option (TxNode × List CTransaction)
  | [], node => some (node, [])
  | message :: rest, node =>
    (processTx env node message).bind fun first =>
      (processAll env rest first.1).map fun later => (later.1, first.2 ++ later.2)

/-! ## Keeping the maps -/

/-- The sets are right and every orphan is stored under its hash and short; there may be
keys with an empty set. -/
structure Sound (env : Env) (node : TxNode) : Prop where
  lists : Lists prevHashes node.mapOrphanTransactions node.mapOrphanTransactionsByPrev
  keyed : ∀ hash tx, node.mapOrphanTransactions.lookup hash = some tx → getTxHash env tx = hash
  short : ∀ hash tx, node.mapOrphanTransactions.lookup hash = some tx →
    serializeSize tx ≤ maxOrphanSize

/-- What a change of the orphan maps leaves alone. -/
structure SameRest (node next : TxNode) : Prop where
  mempool : next.mempool = node.mempool
  wallets : next.wallets = node.wallets
  hollow : ∀ key, Hollow next.mapOrphanTransactionsByPrev key →
    Hollow node.mapOrphanTransactionsByPrev key

variable {env : Env} {tx : CTransaction} {node next : TxNode} {keys : List Uint256}
  {getRandHash : Nat → Uint256} {nMaxOrphans fuel i : Nat} {pool : CTxMemPool} {message : TxMessage}
  {work : Work} {messages : List TxMessage}

theorem Sound.storeOrphan (sound : Sound env node)
    (absent : node.mapOrphanTransactions.lookup (getTxHash env tx) = none)
    (fits : serializeSize tx ≤ maxOrphanSize) :
    Sound env (storeOrphan node (getTxHash env tx) tx) := by
  refine ⟨sound.lists.insert (· ≤ ·) absent tx, fun hash other found => ?_,
    fun hash other found => ?_⟩
  · rcases lookup_insert_cases found with ⟨rfl, rfl⟩ | ⟨_, older⟩
    · rfl
    · exact sound.keyed hash other older
  · rcases lookup_insert_cases found with ⟨_, rfl⟩ | ⟨_, older⟩
    · exact fits
    · exact sound.short hash other older

theorem addOrphanTx_spec (sound : Sound env node) :
    Sound env (addOrphanTx env node tx) ∧ SameRest node (addOrphanTx env node tx) := by
  unfold addOrphanTx
  split
  · exact ⟨sound, rfl, rfl, fun _ hollow => hollow⟩
  · rename_i absent
    have missing : node.mapOrphanTransactions.lookup (getTxHash env tx) = none := by
      simpa using absent
    split
    · exact ⟨sound, rfl, rfl, fun _ hollow => hollow⟩
    · rename_i fits
      exact ⟨sound.storeOrphan missing (not_lt.mp fits), rfl, rfl,
        fun key hollow => ((hollow_foldl fun _ _ => hollow_enter).mp hollow).1⟩

/-- What erasing an orphan does and what it leaves. -/
structure Erased (env : Env) (node : TxNode) (hash : Uint256) (next : TxNode) : Prop where
  sound : Sound env next
  mempool : next.mempool = node.mempool
  wallets : next.wallets = node.wallets
  hollow : ∀ key, Hollow next.mapOrphanTransactionsByPrev key ↔
    Hollow node.mapOrphanTransactionsByPrev key
  lookup : ∀ other, next.mapOrphanTransactions.lookup other =
    if other = hash then none else node.mapOrphanTransactions.lookup other
  keys : next.mapOrphanTransactions.keys = node.mapOrphanTransactions.keys.erase hash

theorem eraseOrphanTx_spec (hash : Uint256) (sound : Sound env node) :
    Erased env node hash (eraseOrphanTx node hash) := by
  cases found : node.mapOrphanTransactions.lookup hash with
  | none =>
    have outside : hash ∉ node.mapOrphanTransactions.keys :=
      AList.mem_keys.not.mp (AList.lookup_eq_none.mp found)
    have same : eraseOrphanTx node hash = node := by rw [eraseOrphanTx, found]
    rw [same]
    refine ⟨sound, rfl, rfl, fun _ => Iff.rfl, fun other => ?_, (erase_of_not_mem outside).symm⟩
    split
    · rename_i equal
      rw [equal, found]
    · rfl
  | some tx =>
    have erased : ∀ other, (node.mapOrphanTransactions.erase hash).lookup other =
        if other = hash then none else node.mapOrphanTransactions.lookup other := by
      intro other
      split
      · rename_i equal
        rw [equal, AList.lookup_erase]
      · rename_i different
        exact AList.lookup_erase_ne different
    have older : ∀ other item, (node.mapOrphanTransactions.erase hash).lookup other = some item →
        node.mapOrphanTransactions.lookup other = some item := by
      intro other item present
      rw [erased] at present
      split at present
      · cases present
      · exact present
    rw [eraseOrphanTx, found]
    refine ⟨⟨sound.lists.erase found, ?_, ?_⟩, rfl, rfl, fun key => ?_, erased,
      AList.keys_erase hash _⟩
    · exact fun other item present => sound.keyed other item (older other item present)
    · exact fun other item present => sound.short other item (older other item present)
    · show Hollow ((prevHashes tx).foldl (leave hash) _) key ↔ _
      rw [hollow_foldl fun _ _ => hollow_leave]
      exact ⟨And.left, fun hollow =>
        ⟨hollow, fun mentioned => sound.lists.not_hollow found mentioned hollow⟩⟩

variable {hashes : List Uint256} {hash : Uint256} {log : List CTransaction}

theorem foldl_eraseOrphanTx_spec : ∀ node, Sound env node →
      Sound env (hashes.foldl eraseOrphanTx node) ∧
      (hashes.foldl eraseOrphanTx node).mempool = node.mempool ∧
      (hashes.foldl eraseOrphanTx node).wallets = node.wallets ∧
      (∀ key, Hollow (hashes.foldl eraseOrphanTx node).mapOrphanTransactionsByPrev key ↔
        Hollow node.mapOrphanTransactionsByPrev key) ∧
      (∀ other, (hashes.foldl eraseOrphanTx node).mapOrphanTransactions.lookup other =
        if other ∈ hashes then none else node.mapOrphanTransactions.lookup other) ∧
      (hashes.foldl eraseOrphanTx node).mapOrphanTransactions.keys.length ≤
        node.mapOrphanTransactions.keys.length := by
  induction hashes with
  | nil =>
    intro node sound
    exact ⟨sound, rfl, rfl, fun _ => Iff.rfl, fun _ => by simp, le_rfl⟩
  | cons hash hashes ih =>
    intro node sound
    have first := eraseOrphanTx_spec hash sound
    obtain ⟨later, mempool, wallets, hollow, lookup, keys⟩ := ih _ first.sound
    refine ⟨later, mempool.trans first.mempool, wallets.trans first.wallets,
      fun key => (hollow key).trans (first.hollow key), fun other => ?_, ?_⟩
    · rw [foldl_cons, lookup, first.lookup]
      by_cases same : other = hash <;> by_cases member : other ∈ hashes <;> simp [same, member]
    · rw [first.keys] at keys
      exact keys.trans (length_erase_le)

theorem least_spec :
    (∀ key, least keys = some key → key ∈ keys) ∧ (least keys = none → keys = []) := by
  induction keys with
  | nil => exact ⟨fun key impossible => (by cases impossible), fun _ => rfl⟩
  | cons key rest ih =>
    rw [least]
    cases smallest : least rest with
    | none => simp
    | some other =>
      have member := ih.1 other smallest
      refine ⟨fun chosen same => ?_, fun impossible => by cases impossible⟩
      simp only [some.injEq] at same
      split at same
      · exact same ▸ mem_cons_self
      · exact same ▸ mem_cons_of_mem _ member

theorem evictee_mem {randomhash : Uint256} (filled : keys ≠ []) :
    ∃ key, evictee keys randomhash = some key ∧ key ∈ keys := by
  unfold evictee
  cases chosen : least (keys.filter fun key => randomhash ≤ key) with
  | some key => exact ⟨key, rfl, mem_of_mem_filter (least_spec.1 key chosen)⟩
  | none =>
    cases smallest : least keys with
    | none => exact absurd (least_spec.2 smallest) filled
    | some key => exact ⟨key, rfl, least_spec.1 key smallest⟩

theorem evictOrphans_spec : ∀ nEvicted node, Sound env node →
      node.mapOrphanTransactions.keys.length ≤ fuel →
      Sound env (evictOrphans nMaxOrphans getRandHash fuel nEvicted node) ∧
      SameRest node (evictOrphans nMaxOrphans getRandHash fuel nEvicted node) ∧
      (evictOrphans nMaxOrphans getRandHash fuel nEvicted node).mapOrphanTransactions.keys.length ≤
        nMaxOrphans := by
  induction fuel with
  | zero =>
    intro nEvicted node sound enough
    exact ⟨sound, ⟨rfl, rfl, fun _ hollow => hollow⟩, enough.trans (Nat.zero_le _)⟩
  | succ fuel ih =>
    intro nEvicted node sound enough
    rw [evictOrphans]
    split
    · rename_i many
      have filled : node.mapOrphanTransactions.keys ≠ [] := by
        intro empty
        rw [empty] at many
        cases many
      obtain ⟨hash, chosen, member⟩ := evictee_mem filled
      have first := eraseOrphanTx_spec hash sound
      have fewer : (eraseOrphanTx node hash).mapOrphanTransactions.keys.length ≤ fuel := by
        rw [first.keys, length_erase_of_mem member]
        omega
      obtain ⟨later, rest, size⟩ := ih (nEvicted + 1) _ first.sound fewer
      rw [chosen]
      exact ⟨later, ⟨rest.mempool.trans first.mempool, rest.wallets.trans first.wallets,
        fun key hollow => (first.hollow key).mp (rest.hollow key hollow)⟩, size⟩
    · rename_i few
      exact ⟨sound, ⟨rfl, rfl, fun _ hollow => hollow⟩, not_lt.mp few⟩

theorem evictOrphans_few {nEvicted : Nat}
    (few : node.mapOrphanTransactions.keys.length ≤ nMaxOrphans) :
    evictOrphans nMaxOrphans getRandHash fuel nEvicted node = node := by
  cases fuel with
  | zero => rfl
  | succ fuel => rw [evictOrphans, if_neg (not_lt.mpr few)]

/-! ## The work queue -/

theorem accept_accepted {tip : ChainTip} (result : (accept env tip pool tx true).1 = .accepted) :
    lookup pool (getTxHash env tx) = none ∧
      (accept env tip pool tx true).2 = addUnchecked pool (getTxHash env tx) tx := by
  unfold accept at result ⊢
  split at result
  · rename_i checks
    rw [if_pos checks]
    cases inputs : checkPoolInputs env tip pool tx with
    | accepted =>
      simp only [acceptable, Bool.and_eq_true, Bool.not_eq_true', isSome_eq_false_iff,
        isNone_iff_eq_none] at checks
      exact ⟨by rw [lookup, checks.1.1.2]; rfl, rfl⟩
    | rejected fMissingInputs => simp [inputs] at result
  · cases result

theorem lookup_pool_addUnchecked {other : Uint256} :
    lookup (addUnchecked pool hash tx) other =
      if other = hash then some tx else lookup pool other := by
  by_cases same : other = hash
  · subst same
    simp [lookup, addUnchecked]
  · simp [lookup, addUnchecked, AList.lookup_insert_ne same, same]

/-- The loop has read the sets of the first `i` hashes of the queue.  `start` is the node
before the message. -/
structure Worked (env : Env) (message : TxMessage) (start : TxNode) (i : Nat) (work : Work) :
    Prop where
  reach : i ≤ work.vWorkQueue.length
  orphans : work.node.mapOrphanTransactions = start.mapOrphanTransactions
  sets : ∀ key, subscript work.node.mapOrphanTransactionsByPrev key =
    subscript start.mapOrphanTransactionsByPrev key
  missing : ∀ key, work.node.mapOrphanTransactionsByPrev.lookup key = none ↔
    start.mapOrphanTransactionsByPrev.lookup key = none ∧ key ∉ work.vWorkQueue.take i
  hollow : ∀ key, Hollow work.node.mapOrphanTransactionsByPrev key ↔
    Hollow start.mapOrphanTransactionsByPrev key ∨
      (start.mapOrphanTransactionsByPrev.lookup key = none ∧ key ∈ work.vWorkQueue.take i)
  queue : ∃ followers, work.vWorkQueue = getTxHash env message.tx :: followers ∧
    ∀ hash ∈ followers, (start.mapOrphanTransactions.lookup hash).isSome = true
  distinct : work.vWorkQueue.Nodup
  fresh : ∀ hash ∈ work.vWorkQueue, lookup start.mempool hash = none
  pooled : ∀ hash ∈ work.vWorkQueue, (lookup work.node.mempool hash).isSome = true
  first : lookup work.node.mempool (getTxHash env message.tx) = some message.tx
  others : ∀ hash, hash ∉ work.vWorkQueue →
    lookup work.node.mempool hash = lookup start.mempool hash
  synced : work.synced = List.replicate work.vWorkQueue.length message.tx
  wallets : work.node.wallets = work.synced.foldl (syncConnect env 0) start.wallets

section Loop
variable {start : TxNode}

theorem worked_start (result : (accept env message.tip start.mempool message.tx true).1 = .accepted) :
    Worked env message start 0 (startWork env start message) := by
  obtain ⟨absent, added⟩ := accept_accepted result
  have queue : (startWork env start message).vWorkQueue = [getTxHash env message.tx] := rfl
  have pool : (startWork env start message).node.mempool =
      addUnchecked start.mempool (getTxHash env message.tx) message.tx := added
  refine ⟨Nat.zero_le _, rfl, fun _ => rfl, fun key => ?_, fun key => ?_, ⟨[], rfl, ?_⟩, ?_, ?_, ?_,
    ?_, ?_, rfl, rfl⟩
  · simp [startWork, accepted]
  · simp [startWork, accepted]
  · intro hash member
    cases member
  · rw [queue]
    exact nodup_singleton _
  · intro hash member
    rw [queue, mem_singleton] at member
    rw [member, absent]
  · intro hash member
    rw [queue, mem_singleton] at member
    rw [pool, lookup_pool_addUnchecked, if_pos member]
    rfl
  · rw [pool, lookup_pool_addUnchecked, if_pos rfl]
  · intro hash member
    rw [queue, mem_singleton] at member
    rw [pool, lookup_pool_addUnchecked, if_neg member]

theorem Worked.visit (keyed : Sound env start) (worked : Worked env message start i work)
    {orphanTx : CTransaction} (stored : start.mapOrphanTransactions.lookup hash = some orphanTx) :
    Worked env message start i (visitOrphan env message work hash) := by
  have here : work.node.mapOrphanTransactions.lookup hash = some orphanTx := by
    rw [worked.orphans, stored]
  have name : getTxHash env orphanTx = hash := keyed.keyed hash orphanTx stored
  rw [visitOrphan, here]
  simp only [settleOrphan]
  split
  · rename_i result
    obtain ⟨absent, added⟩ := accept_accepted result
    rw [name] at absent added
    have outside : hash ∉ work.vWorkQueue := by
      intro member
      have pooled := worked.pooled hash member
      rw [absent] at pooled
      cases pooled
    obtain ⟨followers, shape, known⟩ := worked.queue
    have taken : (work.vWorkQueue ++ [hash]).take i = work.vWorkQueue.take i :=
      take_append_of_le_length worked.reach
    have pool : ∀ other, lookup (addUnchecked work.node.mempool hash orphanTx) other =
        if other = hash then some orphanTx else lookup work.node.mempool other :=
      fun other => lookup_pool_addUnchecked
    rw [added]
    refine ⟨?_, worked.orphans, worked.sets, fun key => ?_, fun key => ?_, ⟨followers ++ [hash], ?_,
      ?_⟩, ?_, ?_, ?_, ?_, ?_, ?_, ?_⟩
    · simp only [accepted, length_append]
      exact worked.reach.trans (Nat.le_add_right _ _)
    · simp only [accepted, taken]
      exact worked.missing key
    · simp only [accepted, taken]
      exact worked.hollow key
    · simp only [accepted, shape, cons_append]
    · intro other member
      rcases mem_append.mp member with older | new
      · exact known other older
      · rw [mem_singleton.mp new, stored]
        rfl
    · exact nodup_append.mpr ⟨worked.distinct, nodup_singleton _,
        fun other member new single => fun same =>
          outside (mem_singleton.mp single ▸ same ▸ member)⟩
    · intro other member
      rcases mem_append.mp member with older | new
      · exact worked.fresh other older
      · rw [mem_singleton.mp new, ← worked.others hash outside, absent]
    · intro other member
      simp only [accepted, pool]
      rcases mem_append.mp member with older | new
      · have different : other ≠ hash := fun same => outside (same ▸ older)
        rw [if_neg different]
        exact worked.pooled other older
      · rw [if_pos (mem_singleton.mp new)]
        rfl
    · have different : getTxHash env message.tx ≠ hash := fun same =>
        outside (by rw [shape, same]; exact mem_cons_self)
      simp only [accepted, pool, if_neg different]
      exact worked.first
    · intro other member
      simp only [accepted, mem_append, mem_singleton, not_or] at member
      simp only [accepted, pool, if_neg member.2]
      exact worked.others other member.1
    · simp only [accepted, worked.synced, length_append, length_singleton, replicate_succ']
    · simp only [accepted, List.foldl_append, foldl_cons, foldl_nil, worked.wallets]
  · exact worked
  · exact ⟨worked.reach, worked.orphans, worked.sets, worked.missing, worked.hollow, worked.queue,
      worked.distinct, worked.fresh, worked.pooled, worked.first, worked.others, worked.synced,
      worked.wallets⟩

variable {hashPrev : Uint256}

theorem Worked.touch (worked : Worked env message start i work)
    (next : work.vWorkQueue[i]? = some hashPrev) :
    Worked env message start (i + 1) (touchPrev work hashPrev) := by
  obtain ⟨inside, here⟩ := List.getElem?_eq_some_iff.mp next
  have grown : ∀ key, key ∈ work.vWorkQueue.take (i + 1) ↔
      key ∈ work.vWorkQueue.take i ∨ key = hashPrev := by
    intro key
    rw [take_add_one, next]
    simp
  refine ⟨inside, worked.orphans, fun key => ?_, fun key => ?_, fun key => ?_, worked.queue,
    worked.distinct, worked.fresh, worked.pooled, worked.first, worked.others, worked.synced,
    worked.wallets⟩
  · rw [← worked.sets key]
    exact subscript_touch _ hashPrev key
  · simp only [touchPrev, lookup_touch_eq_none, worked.missing, grown]
    tauto
  · simp only [touchPrev, hollow_touch, worked.hollow, worked.missing, grown]
    constructor
    · rintro ((before | ⟨absent, member⟩) | ⟨rfl, absent, _⟩)
      · exact Or.inl before
      · exact Or.inr ⟨absent, Or.inl member⟩
      · exact Or.inr ⟨absent, Or.inr rfl⟩
    · rintro (before | ⟨absent, member | rfl⟩)
      · exact Or.inl (Or.inl before)
      · exact Or.inl (Or.inr ⟨absent, member⟩)
      · by_cases earlier : key ∈ work.vWorkQueue.take i
        · exact Or.inl (Or.inr ⟨absent, earlier⟩)
        · exact Or.inr ⟨rfl, absent, earlier⟩

theorem Worked.visitAll (sound : Sound env start) (hashes : List Uint256) :
    ∀ work, Worked env message start i work →
      (∀ hash ∈ hashes, (start.mapOrphanTransactions.lookup hash).isSome = true) →
      Worked env message start i (hashes.foldl (visitOrphan env message) work) := by
  induction hashes with
  | nil => exact fun _ worked _ => worked
  | cons hash hashes ih =>
    intro work worked known
    obtain ⟨orphanTx, stored⟩ := isSome_iff_exists.mp (known hash mem_cons_self)
    exact ih _ (worked.visit sound stored)
      fun other member => known other (mem_cons_of_mem _ member)

theorem Worked.visitPrev (sound : Sound env start) (worked : Worked env message start i work)
    (next : work.vWorkQueue[i]? = some hashPrev) :
    Worked env message start (i + 1) (visitPrev env message work hashPrev) := by
  apply Worked.visitAll sound _ _ (worked.touch next)
  intro hash member
  rw [worked.sets hashPrev] at member
  obtain ⟨orphanTx, stored, _⟩ := (sound.lists hashPrev hash).mp member
  rw [stored]
  rfl

theorem Worked.queue_length (worked : Worked env message start i work) :
    work.vWorkQueue.length ≤ start.mapOrphanTransactions.keys.length + 1 := by
  obtain ⟨followers, shape, known⟩ := worked.queue
  have distinct := worked.distinct
  rw [shape] at distinct
  have inside : followers ⊆ start.mapOrphanTransactions.keys := by
    intro hash member
    exact AList.mem_keys.mp (AList.lookup_isSome.mp (known hash member))
  have bound := (List.Nodup.subperm (nodup_cons.mp distinct).2 inside).length_le
  rw [shape, length_cons]
  omega

theorem workLoop_spec (sound : Sound env start) (fuel : Nat) :
    ∀ i work, Worked env message start i work →
      start.mapOrphanTransactions.keys.length + 1 ≤ i + fuel →
      ∃ final, workLoop env message fuel i work = some final ∧
        Worked env message start final.vWorkQueue.length final := by
  induction fuel with
  | zero =>
    intro i work worked enough
    have ended : ¬ i < work.vWorkQueue.length := by
      have bound := worked.queue_length
      omega
    have whole : i = work.vWorkQueue.length := le_antisymm worked.reach (not_lt.mp ended)
    exact ⟨work, if_neg ended, whole ▸ worked⟩
  | succ fuel ih =>
    intro i work worked enough
    rw [workLoop]
    cases next : work.vWorkQueue[i]? with
    | none =>
      have whole : i = work.vWorkQueue.length :=
        le_antisymm worked.reach (List.getElem?_eq_none_iff.mp next)
      exact ⟨work, rfl, whole ▸ worked⟩
    | some hashPrev => exact ih (i + 1) _ (worked.visitPrev sound next) (by omega)

end Loop

theorem processTx_missing
    (result : (accept env message.tip node.mempool message.tx true).1 = .rejected true) :
    processTx env node message = some (limitOrphanTxSize maxOrphanTransactions message.getRandHash
      (addOrphanTx env node message.tx), []) := by
  unfold processTx
  rw [result]

/-- What a message does: it is refused and stored, or refused and dropped, or its
transaction enters the pool and the work queue ends. -/
theorem processTx_cases (message : TxMessage) (sound : Sound env node) :
    ((accept env message.tip node.mempool message.tx true).1 = .accepted ∧
      ∃ work, workLoop env message (node.mapOrphanTransactions.keys.length + 1) 0
          (startWork env node message) = some work ∧
        Worked env message node work.vWorkQueue.length work ∧
        processTx env node message =
          some (work.vEraseQueue.foldl eraseOrphanTx work.node, work.synced)) ∨
    ((accept env message.tip node.mempool message.tx true).1 ≠ .accepted ∧
      ∃ next, processTx env node message = some (next, []) ∧ Sound env next ∧
        SameRest node next ∧
        (next.mapOrphanTransactions.keys.length ≤ maxOrphanTransactions ∨
          next.mapOrphanTransactions = node.mapOrphanTransactions)) := by
  unfold processTx
  split
  · rename_i result
    obtain ⟨final, ended, worked⟩ := workLoop_spec sound
      (node.mapOrphanTransactions.keys.length + 1) 0 _ (worked_start result) (by omega)
    exact Or.inl ⟨result, final, ended, worked, by rw [ended]; rfl⟩
  · rename_i result
    obtain ⟨stored, rest⟩ := addOrphanTx_spec sound
    obtain ⟨limited, later, few⟩ := evictOrphans_spec 0 _ stored le_rfl
    refine Or.inr ⟨by rw [result]; decide, _, rfl, limited, ?_, Or.inl few⟩
    exact ⟨later.mempool.trans rest.mempool, later.wallets.trans rest.wallets,
      fun key hollow => rest.hollow key (later.hollow key hollow)⟩
  · rename_i result
    exact Or.inr ⟨by rw [result]; decide, node, rfl, sound, ⟨rfl, rfl, fun _ hollow => hollow⟩,
      Or.inr rfl⟩

/-! ## Whole runs -/

theorem Worked.sound {start : TxNode} (worked : Worked env message start i work)
    (sound : Sound env start) : Sound env work.node := by
  refine ⟨fun key hash => ?_, ?_, ?_⟩
  · rw [worked.sets, worked.orphans]
    exact sound.lists key hash
  · rw [worked.orphans]
    exact sound.keyed
  · rw [worked.orphans]
    exact sound.short

theorem processTx_returns (message : TxMessage) (sound : Sound env node) :
    ∃ next log, processTx env node message = some (next, log) ∧ Sound env next ∧
      (node.mapOrphanTransactions.keys.length ≤ maxOrphanTransactions →
        next.mapOrphanTransactions.keys.length ≤ maxOrphanTransactions) ∧
      (∀ hash tx, lookup node.mempool hash = some tx → lookup next.mempool hash = some tx) ∧
      next.wallets = log.foldl (syncConnect env 0) node.wallets := by
  rcases processTx_cases message sound with ⟨_, work, _, worked, result⟩ |
    ⟨_, next, result, later, rest, size⟩
  · obtain ⟨erased, mempool, wallets, _, _, keys⟩ :=
      foldl_eraseOrphanTx_spec work.node (worked.sound sound)
    rw [worked.orphans] at keys
    refine ⟨_, _, result, erased, fun few => keys.trans few, fun hash tx pooled => ?_, ?_⟩
    · have outside : hash ∉ work.vWorkQueue := by
        intro member
        rw [worked.fresh hash member] at pooled
        cases pooled
      rw [mempool, worked.others hash outside, pooled]
    · rw [wallets, worked.wallets]
  · refine ⟨next, [], result, later, fun few => ?_, fun hash tx pooled => ?_, rest.wallets⟩
    · rcases size with bound | same
      · exact bound
      · rw [same]
        exact few
    · rw [rest.mempool, pooled]

theorem processAll_returns (messages : List TxMessage) :
    ∀ node, Sound env node → ∃ final log, processAll env messages node = some (final, log) ∧
      (∀ hash tx, lookup node.mempool hash = some tx → lookup final.mempool hash = some tx) ∧
      final.wallets = log.foldl (syncConnect env 0) node.wallets := by
  induction messages with
  | nil => exact fun node _ => ⟨node, [], rfl, fun _ _ pooled => pooled, rfl⟩
  | cons message rest ih =>
    intro node sound
    obtain ⟨next, log, result, later, _, keeps, wallets⟩ := processTx_returns message sound
    obtain ⟨final, more, run, keepsLater, walletsLater⟩ := ih next later
    refine ⟨final, log ++ more, ?_, fun hash tx pooled =>
      keepsLater hash tx (keeps hash tx pooled), ?_⟩
    · simp only [processAll, result, run, bind_some, map_some]
    · rw [walletsLater, wallets, List.foldl_append]

structure NoOrphans (node : TxNode) : Prop where
  orphans : node.mapOrphanTransactions = ∅
  byPrev : node.mapOrphanTransactionsByPrev = ∅

theorem NoOrphans.sound (clear : NoOrphans node) (env : Env) : Sound env node := by
  refine ⟨fun key hash => ?_, fun hash tx found => ?_, fun hash tx found => ?_⟩
  · simp [subscript, clear.orphans, clear.byPrev]
  · simp [clear.orphans] at found
  · simp [clear.orphans] at found

def Bounded (env : Env) (node : TxNode) : Prop :=
  Sound env node ∧ node.mapOrphanTransactions.keys.length ≤ maxOrphanTransactions

theorem Bounded.step (bounded : Bounded env node)
    (result : processTx env node message = some (next, log)) : Bounded env next := by
  obtain ⟨_, _, returned, later, fewer, _⟩ := processTx_returns message bounded.1
  cases returned.symm.trans result
  exact ⟨later, fewer bounded.2⟩

/-- Whatever arrives, the orphans stay few and short, and are found by what they spend. -/
theorem orphans_bounded (env : Env) (pool : CTxMemPool) (wallets : List CWallet)
    (messages : List TxMessage) : (processAll env messages ⟨pool, ∅, ∅, wallets⟩).isSome = true ∧
      Always (processTx env) (Bounded env) ⟨pool, ∅, ∅, wallets⟩ messages := by
  have bounded : Bounded env ⟨pool, ∅, ∅, wallets⟩ :=
    ⟨NoOrphans.sound ⟨rfl, rfl⟩ env, Nat.zero_le _⟩
  obtain ⟨_, _, run, _⟩ := processAll_returns messages _ bounded.1
  exact ⟨isSome_of_eq_some run, bounded, throughout_of_invariant (Bounded env)
    (fun _ _ before _ _ => before.step) (fun _ _ _ _ before => before.step) bounded⟩

/-! ### Exact inverses -/

/-- `mapOrphanTransactionsByPrev` has a key exactly when a stored orphan spends it, with the
set of those orphans under it. -/
structure ExactInverse (env : Env) (node : TxNode) : Prop where
  keys : ∀ h, (node.mapOrphanTransactionsByPrev.lookup h).isSome = true ↔
    ∃ hash tx, node.mapOrphanTransactions.lookup hash = some tx ∧ h ∈ prevHashes tx
  sets : ∀ h hashes, node.mapOrphanTransactionsByPrev.lookup h = some hashes → hashes ≠ [] ∧
    ∀ hash, hash ∈ hashes ↔ ∃ tx, node.mapOrphanTransactions.lookup hash = some tx ∧
      getTxHash env tx = hash ∧ h ∈ prevHashes tx
  short : ∀ hash tx, node.mapOrphanTransactions.lookup hash = some tx →
    serializeSize tx ≤ maxOrphanSize
  few : node.mapOrphanTransactions.keys.length ≤ maxOrphanTransactions

theorem exactInverse_iff (sound : Sound env node)
    (few : node.mapOrphanTransactions.keys.length ≤ maxOrphanTransactions) :
    ExactInverse env node ↔ ∀ key, ¬ Hollow node.mapOrphanTransactionsByPrev key := by
  constructor
  · intro exact key hollow
    exact (exact.sets key [] hollow).1 rfl
  · intro filled
    refine ⟨fun h => ?_, fun h hashes found => ⟨fun empty => ?_, fun hash => ?_⟩, sound.short, few⟩
    · have absent := sound.lists.lookup_eq_none (filled h)
      rw [isSome_iff_ne_none, ne_eq, absent]
      push Not
      rfl
    · exact filled h (by rw [Hollow, found, empty])
    · have member := sound.lists h hash
      rw [subscript, found, getD_some] at member
      rw [member]
      constructor
      · rintro ⟨tx, stored, mentioned⟩
        exact ⟨tx, stored, sound.keyed hash tx stored, mentioned⟩
      · rintro ⟨tx, stored, _, mentioned⟩
        exact ⟨tx, stored, mentioned⟩

/-- The calls of `accept` for the orphans of one set. -/
def orphanCalls (env : Env) (message : TxMessage) :
    List Uint256 → Work → List (CTxMemPool × CTransaction)
  | [], _ => []
  | hash :: rest, work =>
    (work.node.mempool, (work.node.mapOrphanTransactions.lookup hash).getD (nullTx message)) ::
      orphanCalls env message rest (visitOrphan env message work hash)

def queueCalls (env : Env) (message : TxMessage) :
    Nat → Nat → Work → List (CTxMemPool × CTransaction)
  | 0, _, _ => []
  | fuel + 1, i, work =>
    match work.vWorkQueue[i]? with
    | none => []
    | some hashPrev =>
      orphanCalls env message (subscript work.node.mapOrphanTransactionsByPrev hashPrev)
          (touchPrev work hashPrev) ++
        queueCalls env message fuel (i + 1) (visitPrev env message work hashPrev)

/-- The calls of `accept` for a message: its own transaction on the pool before, and the orphans
on the pools that the transactions before them leave. -/
def acceptCalls (env : Env) (node : TxNode) (message : TxMessage) :
    List (CTxMemPool × CTransaction) :=
  (node.mempool, message.tx) ::
    match (accept env message.tip node.mempool message.tx true).1 with
    | .accepted => queueCalls env message (node.mapOrphanTransactions.keys.length + 1) 0
        (startWork env node message)
    | .rejected _ => []

/-- Every transaction that `accept` takes is spent by a stored orphan. -/
def Followed (env : Env) (node : TxNode) (message : TxMessage) : Prop :=
  ∀ call ∈ acceptCalls env node message,
    (accept env message.tip call.1 call.2 true).1 = .accepted →
      ∃ orphan tx, node.mapOrphanTransactions.lookup orphan = some tx ∧
        getTxHash env call.2 ∈ prevHashes tx

section Calls
variable {start : TxNode} {hash : Uint256}

/-- The hashes of the transactions that some of the calls take. -/
def Takes (env : Env) (message : TxMessage) (calls : List (CTxMemPool × CTransaction))
    (hash : Uint256) : Prop :=
  ∃ call ∈ calls, (accept env message.tip call.1 call.2 true).1 = .accepted ∧
    getTxHash env call.2 = hash

theorem visitOrphan_takes (sound : Sound env start) (worked : Worked env message start i work)
    {orphan : Uint256} (stored : (start.mapOrphanTransactions.lookup orphan).isSome = true) :
    hash ∈ (visitOrphan env message work orphan).vWorkQueue ↔ hash ∈ work.vWorkQueue ∨
      Takes env message [(work.node.mempool,
        (work.node.mapOrphanTransactions.lookup orphan).getD (nullTx message))] hash := by
  obtain ⟨orphanTx, found⟩ := isSome_iff_exists.mp stored
  have same := sound.keyed orphan orphanTx found
  rw [← worked.orphans] at found
  simp only [visitOrphan, found, Takes, mem_singleton, exists_eq_left, getD_some, same]
  cases result : (accept env message.tip work.node.mempool orphanTx true).1 with
  | accepted => simp [settleOrphan, result, accepted, eq_comm]
  | rejected missing => cases missing <;> simp [settleOrphan, result]

theorem takes_append {calls more : List (CTxMemPool × CTransaction)} :
    Takes env message (calls ++ more) hash ↔
      Takes env message calls hash ∨ Takes env message more hash := by
  simp only [Takes, mem_append, or_and_right, exists_or]

theorem visitAll_takes (sound : Sound env start) (hashes : List Uint256) :
    ∀ work, Worked env message start i work →
      (∀ orphan ∈ hashes, (start.mapOrphanTransactions.lookup orphan).isSome = true) →
      (hash ∈ (hashes.foldl (visitOrphan env message) work).vWorkQueue ↔ hash ∈ work.vWorkQueue ∨
        Takes env message (orphanCalls env message hashes work) hash) := by
  induction hashes with
  | nil => intro work _ _; simp [orphanCalls, Takes]
  | cons orphan hashes ih =>
    intro work worked known
    obtain ⟨here, later⟩ := forall_mem_cons.mp known
    obtain ⟨orphanTx, stored⟩ := isSome_iff_exists.mp here
    rw [foldl_cons, ih _ (worked.visit sound stored) later, visitOrphan_takes sound worked here,
      or_assoc, ← takes_append]
    rfl

theorem workLoop_takes (sound : Sound env start) (fuel : Nat) :
    ∀ i work final, Worked env message start i work →
      workLoop env message fuel i work = some final →
      (hash ∈ final.vWorkQueue ↔ hash ∈ work.vWorkQueue ∨
        Takes env message (queueCalls env message fuel i work) hash) := by
  induction fuel with
  | zero =>
    intro i work final _ ended
    rw [workLoop] at ended
    split at ended
    · cases ended
    · cases ended
      simp [queueCalls, Takes]
  | succ fuel ih =>
    intro i work final worked ended
    rw [workLoop] at ended
    rw [queueCalls]
    cases next : work.vWorkQueue[i]? with
    | none =>
      rw [next] at ended
      cases ended
      simp [Takes]
    | some hashPrev =>
      rw [next] at ended
      have known : ∀ orphan ∈ subscript work.node.mapOrphanTransactionsByPrev hashPrev,
          (start.mapOrphanTransactions.lookup orphan).isSome = true := by
        intro orphan member
        rw [worked.sets hashPrev] at member
        obtain ⟨orphanTx, stored, _⟩ := (sound.lists hashPrev orphan).mp member
        exact isSome_of_eq_some stored
      have visited : hash ∈ (visitPrev env message work hashPrev).vWorkQueue ↔ _ :=
        visitAll_takes sound _ _ (worked.touch next) known
      rw [ih _ _ _ (worked.visitPrev sound next) ended, visited, or_assoc, ← takes_append]
      rfl

theorem followed_iff (sound : Sound env node)
    (enters : (accept env message.tip node.mempool message.tx true).1 = .accepted)
    (ended : workLoop env message (node.mapOrphanTransactions.keys.length + 1) 0
      (startWork env node message) = some work) :
    Followed env node message ↔ ∀ hash ∈ work.vWorkQueue,
      ∃ orphan tx, node.mapOrphanTransactions.lookup orphan = some tx ∧ hash ∈ prevHashes tx := by
  have queue : ∀ hash, hash ∈ work.vWorkQueue ↔
      Takes env message (acceptCalls env node message) hash := by
    intro hash
    have first : Takes env message [(node.mempool, message.tx)] hash ↔
        hash ∈ [getTxHash env message.tx] := by
      simp [Takes, enters, eq_comm]
    have calls : acceptCalls env node message = [(node.mempool, message.tx)] ++ queueCalls env
        message (node.mapOrphanTransactions.keys.length + 1) 0 (startWork env node message) := by
      rw [acceptCalls, enters]
      rfl
    rw [workLoop_takes sound _ _ _ _ (worked_start enters) ended, calls, takes_append, first]
    rfl
  simp only [queue, Takes, Followed]
  constructor
  · rintro followed _ ⟨call, made, taken, rfl⟩
    exact followed call made taken
  · intro all call made taken
    exact all _ ⟨call, made, taken, rfl⟩

end Calls

theorem processTx_filled_iff (sound : Sound env node)
    (filled : ∀ key, ¬ Hollow node.mapOrphanTransactionsByPrev key)
    (result : processTx env node message = some (next, log)) :
    (∀ key, ¬ Hollow next.mapOrphanTransactionsByPrev key) ↔ Followed env node message := by
  rcases processTx_cases message sound with ⟨enters, work, ended, worked, call⟩ |
    ⟨refused, other, call, _, rest, _⟩
  · obtain ⟨done, _⟩ := Prod.mk.inj (some.inj (call.symm.trans result))
    obtain ⟨_, _, _, hollow, _, _⟩ := foldl_eraseOrphanTx_spec work.node (worked.sound sound)
    rw [done] at hollow
    rw [followed_iff sound enters ended]
    refine forall_congr' fun key => ?_
    rw [hollow, worked.hollow, take_length, sound.lists.lookup_eq_none (filled key)]
    have clean := filled key
    constructor
    · intro spent member
      by_contra unspent
      push Not at unspent
      exact spent (Or.inr ⟨unspent, member⟩)
    · rintro followed (before | ⟨unspent, member⟩)
      · exact clean before
      · obtain ⟨orphan, tx, stored, mentioned⟩ := followed member
        exact unspent orphan tx stored mentioned
  · cases call.symm.trans result
    refine ⟨fun _ call made taken => ?_, fun _ key empty => filled key (rest.hollow key empty)⟩
    have only : call = (node.mempool, message.tx) := by
      unfold acceptCalls at made
      split at made
      · rename_i enters
        exact absurd enters refused
      · exact mem_singleton.mp made
    rw [only] at taken
    exact absurd taken refused

theorem always_exact_iff :
    ∀ node, Bounded env node → (∀ key, ¬ Hollow node.mapOrphanTransactionsByPrev key) →
      (Always (processTx env) (ExactInverse env) node messages ↔
        Throughout (processTx env) (Followed env) node messages) := by
  induction messages with
  | nil =>
    intro node bounded filled
    exact ⟨fun _ => trivial, fun _ => ⟨(exactInverse_iff bounded.1 bounded.2).mpr filled, trivial⟩⟩
  | cons message rest ih =>
    intro node bounded filled
    obtain ⟨next, log, result, _⟩ := processTx_returns message bounded.1
    have later := bounded.step result
    have step := processTx_filled_iff bounded.1 filled result
    rw [always_cons result, throughout_cons result]
    constructor
    · rintro ⟨_, onward⟩
      have clean := (exactInverse_iff later.1 later.2).mp onward.1
      exact ⟨step.mp clean, (ih next later clean).mp onward⟩
    · rintro ⟨followed, onward⟩
      have clean := step.mpr followed
      exact ⟨(exactInverse_iff bounded.1 bounded.2).mpr filled, (ih next later clean).mpr onward⟩

/-- Every sequence of messages is processed to the end, and the maps are exact inverses
after each message if and only if each message is followed. -/
theorem orphan_maps_exact_iff (env : Env) (start : TxNode) (messages : List TxMessage)
    (clear : NoOrphans start) :
    (processAll env messages start).isSome = true ∧
      (Always (processTx env) (ExactInverse env) start messages ↔
        Throughout (processTx env) (Followed env) start messages) := by
  have sound := clear.sound env
  obtain ⟨final, log, run, _⟩ := processAll_returns messages start sound
  refine ⟨by rw [run]; rfl, always_exact_iff start ⟨sound, ?_⟩ fun key => ?_⟩
  · rw [clear.orphans]
    exact Nat.zero_le _
  · rw [Hollow, clear.byPrev]
    simp

/-! ### A parent and its child

`fundingTx` is in the index; `parentTx` spends it and `childTx` spends `parentTx`. -/

def fundingTx : CTransaction := toyTx [⟨9, 0⟩] [pay 100000000]
def fundingPos : CDiskTxPos := ⟨1, 2, 3⟩
def fundedEnv : Env := toyEnv [(fundingTx, fundingPos)]
def fundedTip : ChainTip where
  txdb := updateTxIndex emptyLedger.txdb (getTxHash fundedEnv fundingTx) (newTxIndex fundingPos 1)
  pindexBest := .root ⟨0, 1, 8, toyBlock 0 []⟩
  nBestHeight := 0

def parentTx : CTransaction := toyTx [⟨getTxHash fundedEnv fundingTx, 0⟩] [pay 90000000]
def childTx : CTransaction := toyTx [⟨getTxHash fundedEnv parentTx, 0⟩] [pay 80000000]
def deliver (tx : CTransaction) : TxMessage := ⟨tx, fundedTip, 0, fun _ => 0⟩
def clearNode : TxNode := ⟨emptyMemPool, ∅, ∅, []⟩

/-- It also spends an output nobody has. -/
def waitingTx : CTransaction :=
  toyTx [⟨getTxHash fundedEnv parentTx, 0⟩, ⟨8, 0⟩] [pay 80000000]

/-- The parent enters the pool, and the orphan that spends it goes on waiting. -/
theorem orphan_maps_exact_waitingTx : Always (processTx fundedEnv) (ExactInverse fundedEnv)
    clearNode [deliver waitingTx, deliver parentTx] := by
  have refused : ∀ call ∈ acceptCalls fundedEnv clearNode (deliver waitingTx),
      (accept fundedEnv fundedTip call.1 call.2 true).1 ≠ .accepted := by decide +kernel
  obtain ⟨⟨next, log⟩, first, stored, spent⟩ : ∃ result ∈ processTx fundedEnv clearNode
      (deliver waitingTx), result.1.mapOrphanTransactions.lookup (getTxHash fundedEnv waitingTx) =
        some waitingTx ∧ ∀ call ∈ acceptCalls fundedEnv result.1 (deliver parentTx),
        (accept fundedEnv fundedTip call.1 call.2 true).1 = .accepted →
          getTxHash fundedEnv call.2 ∈ prevHashes waitingTx := by decide +kernel
  refine (orphan_maps_exact_iff fundedEnv clearNode _ ⟨rfl, rfl⟩).2.mpr
    ((throughout_cons first).mpr ⟨fun call made taken => absurd taken (refused call made),
      fun call made taken => ⟨_, waitingTx, stored, spent call made taken⟩, fun _ _ _ => trivial⟩)

/-- The parent enters the pool, nothing spends it, and its hash stays as an empty key. -/
theorem parentTx_leaves_empty_key :
    ∃ final log, processAll fundedEnv [deliver parentTx] clearNode = some (final, log) ∧
      final.mapOrphanTransactions.keys = [] ∧
      final.mapOrphanTransactionsByPrev.lookup (getTxHash fundedEnv parentTx) = some [] := by
  obtain ⟨⟨final, log⟩, run, keys⟩ : ∃ result ∈ processAll fundedEnv [deliver parentTx] clearNode,
      result.1.mapOrphanTransactions.keys = [] ∧ result.1.mapOrphanTransactionsByPrev.lookup
        (getTxHash fundedEnv parentTx) = some [] := by decide +kernel
  exact ⟨final, log, run, keys⟩

/-! ### Calls of `SyncWithWallets` -/

/-- No stored orphan enters the pool behind the message's transaction. -/
def NoneFollows (env : Env) (node : TxNode) (message : TxMessage) : Prop :=
  (accept env message.tip node.mempool message.tx true).1 = .accepted →
    ∀ hash orphanTx, node.mapOrphanTransactions.lookup hash = some orphanTx →
      getTxHash env message.tx ∈ prevHashes orphanTx →
      (accept env message.tip (accept env message.tip node.mempool message.tx true).2
        orphanTx true).1 ≠ .accepted

/-- The transactions that entered between two states of the pool were each passed once. -/
def SyncedOnce (env : Env) (before after : CTxMemPool) (log : List CTransaction) : Prop :=
  ∀ tx, lookup before (getTxHash env tx) = none → lookup after (getTxHash env tx) = some tx →
    log.count tx = 1

section Followers
variable (env : Env) (message : TxMessage)

theorem settleOrphan_queue {result : AcceptResult × CTxMemPool} : (result.1 = .accepted ∧
      (settleOrphan env message hash result work).vWorkQueue = work.vWorkQueue ++ [hash]) ∨
    (result.1 ≠ .accepted ∧
      (settleOrphan env message hash result work).vWorkQueue = work.vWorkQueue ∧
      (settleOrphan env message hash result work).node = work.node) := by
  unfold settleOrphan
  split <;> rename_i same
  · exact Or.inl ⟨same, rfl⟩
  · exact Or.inr ⟨by rw [same]; decide, rfl, rfl⟩
  · exact Or.inr ⟨by rw [same]; decide, rfl, rfl⟩

theorem settleOrphan_queue_le (hash : Uint256) (result : AcceptResult × CTxMemPool) (work : Work) :
    work.vWorkQueue.length ≤ (settleOrphan env message hash result work).vWorkQueue.length := by
  rcases settleOrphan_queue env message with
    ⟨_, grown⟩ | ⟨_, same, _⟩
  · rw [grown, length_append]
    exact Nat.le_add_right _ _
  · rw [same]

theorem visitAll_queue_le : ∀ work : Work,
    work.vWorkQueue.length ≤ (hashes.foldl (visitOrphan env message) work).vWorkQueue.length := by
  induction hashes with
  | nil => exact fun _ => le_rfl
  | cons hash hashes ih =>
    intro work
    refine le_trans ?_ (ih _)
    unfold visitOrphan
    split
    · exact settleOrphan_queue_le env message hash _ work
    · exact settleOrphan_queue_le env message hash _ (createOrphan message work hash)

theorem workLoop_queue_le : ∀ i (work final : Work),
    workLoop env message fuel i work = some final →
      work.vWorkQueue.length ≤ final.vWorkQueue.length := by
  induction fuel with
  | zero =>
    intro i work final ended
    rw [workLoop] at ended
    split at ended
    · cases ended
    · cases ended
      exact le_rfl
  | succ fuel ih =>
    intro i work final ended
    rw [workLoop] at ended
    split at ended
    · cases ended
      exact le_rfl
    · rename_i hashPrev _
      exact (visitAll_queue_le env message (touchPrev work hashPrev)).trans (ih _ _ _ ended)

variable {env message} in
theorem visitOrphan_stored {orphanTx : CTransaction}
    (stored : work.node.mapOrphanTransactions.lookup hash = some orphanTx) :
    visitOrphan env message work hash = settleOrphan env message hash
      (accept env message.tip work.node.mempool orphanTx true) work := by
  rw [visitOrphan, stored]

theorem visitAll_quiet : ∀ work : Work,
    (∀ hash ∈ hashes, ∃ orphanTx, work.node.mapOrphanTransactions.lookup hash = some orphanTx ∧
      (accept env message.tip work.node.mempool orphanTx true).1 ≠ .accepted) →
    (hashes.foldl (visitOrphan env message) work).vWorkQueue = work.vWorkQueue := by
  induction hashes with
  | nil => exact fun _ _ => rfl
  | cons hash hashes ih =>
    intro work refuses
    obtain ⟨orphanTx, stored, refused⟩ := refuses hash mem_cons_self
    rcases settleOrphan_queue env message with
      ⟨enters, _⟩ | ⟨_, queue, node⟩
    · exact absurd enters refused
    · rw [foldl_cons, visitOrphan_stored stored, ih _ (by
        rw [node]
        exact fun other member => refuses other (mem_cons_of_mem _ member)), queue]

theorem visitAll_grows : ∀ work : Work,
    (∀ hash ∈ hashes, (work.node.mapOrphanTransactions.lookup hash).isSome = true) →
    (∃ hash ∈ hashes, ∃ orphanTx, work.node.mapOrphanTransactions.lookup hash = some orphanTx ∧
      (accept env message.tip work.node.mempool orphanTx true).1 = .accepted) →
    work.vWorkQueue.length < (hashes.foldl (visitOrphan env message) work).vWorkQueue.length := by
  induction hashes with
  | nil =>
    rintro work _ ⟨_, member, _⟩
    cases member
  | cons hash hashes ih =>
    intro work known taken
    obtain ⟨orphanTx, stored⟩ := isSome_iff_exists.mp (known hash mem_cons_self)
    rw [foldl_cons, visitOrphan_stored stored]
    rcases settleOrphan_queue env message with
      ⟨_, grown⟩ | ⟨refused, queue, node⟩
    · refine lt_of_lt_of_le ?_ (visitAll_queue_le env message _)
      rw [grown, length_append]
      exact Nat.lt_succ_self _
    · rw [← queue]
      apply ih
      · rw [node]
        exact fun other member => known other (mem_cons_of_mem _ member)
      · obtain ⟨other, member, otherTx, found, enters⟩ := taken
        rw [node]
        rcases mem_cons.mp member with rfl | later
        · rw [stored, some.injEq] at found
          exact absurd (found ▸ enters) refused
        · exact ⟨other, later, otherTx, found, enters⟩

end Followers

theorem workLoop_done (ended : work.vWorkQueue.length ≤ i) :
    workLoop env message fuel i work = some work := by
  cases fuel with
  | zero => exact if_neg (not_lt.mpr ended)
  | succ fuel => rw [workLoop, List.getElem?_eq_none ended]

theorem queue_single_iff (env : Env) (node : TxNode) (message : TxMessage) (final : Work)
    (sound : Sound env node)
    (result : (accept env message.tip node.mempool message.tx true).1 = .accepted)
    (ended : workLoop env message (node.mapOrphanTransactions.keys.length + 1) 0
      (startWork env node message) = some final) :
    final.vWorkQueue.length = 1 ↔ NoneFollows env node message := by
  have waiting : ∀ hash ∈ subscript node.mapOrphanTransactionsByPrev (getTxHash env message.tx),
      ∃ orphanTx, node.mapOrphanTransactions.lookup hash = some orphanTx ∧
        getTxHash env message.tx ∈ prevHashes orphanTx :=
    fun hash member => (sound.lists _ hash).mp member
  have first : workLoop env message node.mapOrphanTransactions.keys.length 1
      (visitPrev env message (startWork env node message) (getTxHash env message.tx)) =
        some final := ended
  constructor
  · intro single _ hash orphanTx stored mentioned enters
    have grows := visitAll_grows env message
      (touchPrev (startWork env node message) (getTxHash env message.tx))
      (fun other member => by
        obtain ⟨otherTx, found, _⟩ := waiting other member
        exact isSome_iff_exists.mpr ⟨otherTx, found⟩)
      ⟨hash, (sound.lists _ hash).mpr ⟨orphanTx, stored, mentioned⟩, orphanTx, stored, enters⟩
    have bound := workLoop_queue_le env message _ _ _ first
    rw [single] at bound
    exact absurd grows (not_lt.mpr bound)
  · intro none
    have quiet : (visitPrev env message (startWork env node message)
        (getTxHash env message.tx)).vWorkQueue = [getTxHash env message.tx] :=
      visitAll_quiet env message (touchPrev (startWork env node message) (getTxHash env message.tx))
        fun hash member => by
          obtain ⟨orphanTx, stored, mentioned⟩ := waiting hash member
          exact ⟨orphanTx, stored, none result hash orphanTx stored mentioned⟩
    rw [workLoop_done (by rw [quiet]; rfl)] at first
    cases first
    rw [quiet]
    rfl

theorem processTx_syncedOnce_iff (sound : Sound env node)
    (result : processTx env node message = some (next, log)) :
    (SyncedOnce env node.mempool next.mempool log ↔ NoneFollows env node message) ∧
      ∀ tx ∈ log, lookup node.mempool (getTxHash env tx) = none ∧
        lookup next.mempool (getTxHash env tx) = some tx := by
  rcases processTx_cases message sound with ⟨enters, work, ended, worked, call⟩ |
    ⟨refused, other, call, _, rest, _⟩
  · obtain ⟨ends, rfl⟩ := Prod.mk.inj (some.inj (call.symm.trans result))
    obtain ⟨_, mempool, _⟩ := foldl_eraseOrphanTx_spec work.node (worked.sound sound)
    rw [ends] at mempool
    obtain ⟨followers, shape, _⟩ := worked.queue
    have entered : lookup node.mempool (getTxHash env message.tx) = none ∧
        lookup next.mempool (getTxHash env message.tx) = some message.tx :=
      ⟨worked.fresh _ (by rw [shape]; exact mem_cons_self), by rw [mempool, worked.first]⟩
    rw [worked.synced]
    refine ⟨?_, fun tx member => (eq_of_mem_replicate member).symm ▸ entered⟩
    rw [← queue_single_iff env node message work sound enters ended]
    constructor
    · intro once
      have count := once message.tx entered.1 entered.2
      rwa [count_replicate_self] at count
    · intro single tx absent present
      have alone : work.vWorkQueue = [getTxHash env message.tx] := by
        rw [shape, length_cons] at single
        rw [shape, eq_nil_of_length_eq_zero (Nat.succ.inj single)]
      have member : getTxHash env tx ∈ work.vWorkQueue := by
        by_contra outside
        rw [mempool, worked.others _ outside, absent] at present
        cases present
      have same : tx = message.tx := by
        rw [alone, mem_singleton] at member
        rw [member, entered.2, some.injEq] at present
        exact present.symm
      rw [same, single, count_replicate_self]
  · cases call.symm.trans result
    rw [rest.mempool]
    refine ⟨⟨fun _ enters => absurd enters refused, fun _ tx absent present => ?_⟩,
      fun tx member => (by cases member)⟩
    rw [absent] at present
    cases present

theorem processAll_syncedOnce_iff :
    ∀ node final log, Sound env node → processAll env messages node = some (final, log) →
      (SyncedOnce env node.mempool final.mempool log ↔
        Throughout (processTx env) (NoneFollows env) node messages) ∧
      ∀ tx ∈ log, lookup node.mempool (getTxHash env tx) = none := by
  induction messages with
  | nil =>
    intro node final log _ run
    cases run
    refine ⟨⟨fun _ => trivial, fun _ tx absent present => ?_⟩, fun tx member => (by cases member)⟩
    rw [absent] at present
    cases present
  | cons message rest ih =>
    intro node final log sound run
    obtain ⟨next, first, result, later, _, keeps, _⟩ := processTx_returns message sound
    obtain ⟨last, more, onward, keepsLater, _⟩ := processAll_returns rest next later
    simp only [processAll, result, onward, bind_some, map_some, some.injEq, Prod.mk.injEq] at run
    obtain ⟨rfl, rfl⟩ := run
    obtain ⟨step, logged⟩ := processTx_syncedOnce_iff sound result
    obtain ⟨induction, loggedLater⟩ := ih next last more later onward
    have absentBefore : ∀ tx, lookup next.mempool (getTxHash env tx) = none →
        lookup node.mempool (getTxHash env tx) = none := by
      intro tx absent
      cases found : lookup node.mempool (getTxHash env tx) with
      | none => rfl
      | some other =>
        rw [keeps _ other found] at absent
        cases absent
    -- a transaction is logged by the message it enters with, or later
    have early : ∀ tx, lookup next.mempool (getTxHash env tx) = some tx →
        (first ++ more).count tx = first.count tx := by
      intro tx present
      have absent : tx ∉ more := by
        intro member
        rw [loggedLater tx member] at present
        cases present
      rw [count_append, count_eq_zero_of_not_mem absent, Nat.add_zero]
    have late : ∀ tx, lookup next.mempool (getTxHash env tx) = none →
        (first ++ more).count tx = more.count tx := by
      intro tx absent
      have notFirst : tx ∉ first := by
        intro member
        rw [(logged tx member).2] at absent
        cases absent
      rw [count_append, count_eq_zero_of_not_mem notFirst, Nat.zero_add]
    refine ⟨?_, fun tx member => ?_⟩
    · have split : SyncedOnce env node.mempool last.mempool (first ++ more) ↔
          SyncedOnce env node.mempool next.mempool first ∧
            SyncedOnce env next.mempool last.mempool more := by
        constructor
        · intro once
          refine ⟨fun tx absent present => ?_, fun tx absent present => ?_⟩
          · rw [← early tx present]
            exact once tx absent (keepsLater _ tx present)
          · rw [← late tx absent]
            exact once tx (absentBefore tx absent) present
        · rintro ⟨once, onceLater⟩ tx absent present
          cases found : lookup next.mempool (getTxHash env tx) with
          | none =>
            rw [late tx found]
            exact onceLater tx found present
          | some other =>
            rw [keepsLater _ other found, some.injEq] at present
            rw [present] at found
            rw [early tx found]
            exact once tx absent found
      rw [split, step, induction, throughout_cons result]
    · rcases mem_append.mp member with now | afterwards
      · exact (logged tx now).1
      · exact absentBefore tx (loggedLater tx afterwards)

/-- Over a run, each transaction that entered the pool was passed to `SyncWithWallets` once
if and only if no message was followed by an orphan; the wallets are what those calls made
of them. -/
theorem synced_once_iff (env : Env) (start : TxNode) (messages : List TxMessage)
    (clear : NoOrphans start) :
    ∃ final log, processAll env messages start = some (final, log) ∧
      final.wallets = log.foldl (syncConnect env 0) start.wallets ∧
      (SyncedOnce env start.mempool final.mempool log ↔
        Throughout (processTx env) (NoneFollows env) start messages) := by
  have sound := clear.sound env
  obtain ⟨final, log, run, _, wallets⟩ := processAll_returns messages start sound
  exact ⟨final, log, run, wallets, (processAll_syncedOnce_iff start final log sound run).1⟩

theorem synced_once_parentTx :
    ∃ final log, processAll fundedEnv [deliver parentTx] clearNode = some (final, log) ∧
      SyncedOnce fundedEnv clearNode.mempool final.mempool log := by
  obtain ⟨final, log, run, _, once⟩ :=
    synced_once_iff fundedEnv clearNode [deliver parentTx] ⟨rfl, rfl⟩
  refine ⟨final, log, run, once.mpr ⟨fun _ hash orphanTx stored => ?_, fun _ _ _ => trivial⟩⟩
  cases stored

/-- The child arrives first.  Both enter the pool with the second message, and the wallets
are given the parent twice and the child never. -/
theorem childTx_never_synced :
    ∃ final, processAll fundedEnv [deliver childTx, deliver parentTx] clearNode =
        some (final, [parentTx, parentTx]) ∧
      lookup final.mempool (getTxHash fundedEnv parentTx) = some parentTx ∧
      lookup final.mempool (getTxHash fundedEnv childTx) = some childTx := by
  obtain ⟨⟨final, log⟩, run, rfl, entered⟩ : ∃ result ∈ processAll fundedEnv
      [deliver childTx, deliver parentTx] clearNode, [parentTx, parentTx] = result.2 ∧
        lookup result.1.mempool (getTxHash fundedEnv parentTx) = some parentTx ∧
        lookup result.1.mempool (getTxHash fundedEnv childTx) = some childTx := by decide +kernel
  exact ⟨final, run, entered⟩

end SynergyPool.Orphans
