import SynergyFormal.Pool.MemPool
import SynergyFormal.Lib.Descent
import Mathlib.Data.FinEnum

/-!
# Removing transactions from the memory pool

`Consistent` is the invariant of the pool: every node stands under the hash of its
transaction, `mapNextTx` links an outpoint to a node exactly when the node's
transaction spends it there, and nodes have distinct addresses.

A recursive `remove` that returns has cut the transaction with everything below it in
the spend graph.  The induction also shows that the cut part was grounded, so that no
node still referenced further up the call stack was erased.
-/

set_option autoImplicit false

namespace SynergyPool.Removal

open SynergyData
open List Option Relation SynergyLib SynergyLib.Descent Transaction CheckTransaction Block
  SynergyLedger.TxDB SynergyLedger.Inputs MemPool

structure Consistent (env : Env) (pool : CTxMemPool) : Prop where
  keyed : ∀ hash node, pool.mapTx.lookup hash = some node → getTxHash env node.tx = hash
  links : ∀ o inpoint, pool.mapNextTx.lookup o = some inpoint ↔
    ∃ hash node txin, pool.mapTx.lookup hash = some node ∧ node.ptx = inpoint.ptx ∧
      node.tx.vin[inpoint.n]? = some txin ∧ txin.prevout = o
  addresses : ∀ hash hash' node node', pool.mapTx.lookup hash = some node →
    pool.mapTx.lookup hash' = some node' → node.ptx = node'.ptx → hash = hash'
  fresh : ∀ hash node, pool.mapTx.lookup hash = some node → node.ptx < pool.nextNode

theorem consistent_empty {env : Env} {nextNode : Nat} : Consistent env ⟨∅, ∅, nextNode⟩ := by
  refine ⟨?_, ?_, ?_, ?_⟩ <;> simp

variable {pool rest : CTxMemPool} {env : Env} {hash : Uint256} {node : Node} {D : Uint256 → Prop}

variable {tx : CTransaction} {vin : List CTxIn} {E : Uint256 → Prop} {ref : TxRef}
  {Done : CTxMemPool → Prop} {Stuck : Prop} {current : CTxMemPool}

theorem deref_eq_some_iff (consistent : Consistent env pool) {ptx : Nat} :
    deref pool ptx = some tx ↔
      ∃ hash node, pool.mapTx.lookup hash = some node ∧ node.ptx = ptx ∧ node.tx = tx := by
  simp only [deref, map_eq_some_iff]
  constructor
  · rintro ⟨⟨hash, node⟩, found, rfl⟩
    exact ⟨hash, node, AList.mem_lookup_iff.mpr (List.mem_of_find?_eq_some found),
      by simpa using List.find?_some found, rfl⟩
  · rintro ⟨hash, node, present, rfl, rfl⟩
    have member : (⟨hash, node⟩ : Sigma fun _ : Uint256 => Node) ∈ pool.mapTx.entries :=
      AList.mem_lookup_iff.mp present
    cases found : pool.mapTx.entries.find? fun entry => entry.2.ptx == node.ptx with
    | none => exact absurd (List.find?_eq_none.mp found ⟨hash, node⟩ member) (by simp)
    | some entry =>
      obtain ⟨other, otherNode⟩ := entry
      have otherPresent : pool.mapTx.lookup other = some otherNode :=
        AList.mem_lookup_iff.mpr (List.mem_of_find?_eq_some found)
      have sameAddress : otherNode.ptx = node.ptx := by simpa using List.find?_some found
      have sameHash := consistent.addresses other hash otherNode node otherPresent present
        sameAddress
      subst sameHash
      have sameNode : otherNode = node := some.inj (otherPresent.symm.trans present)
      exact ⟨_, rfl, by rw [sameNode]⟩

theorem Consistent.disjoint (consistent : Consistent env pool) {hash' : Uint256} {node' : Node}
    {txin txin' : CTxIn} (present : pool.mapTx.lookup hash = some node)
    (present' : pool.mapTx.lookup hash' = some node') (member : txin ∈ node.tx.vin)
    (member' : txin' ∈ node'.tx.vin) (same : txin.prevout = txin'.prevout) : hash = hash' := by
  obtain ⟨i, at_i⟩ := mem_iff_getElem?.mp member
  obtain ⟨j, at_j⟩ := mem_iff_getElem?.mp member'
  have first := (consistent.links txin.prevout ⟨node.ptx, i⟩).mpr
    ⟨hash, node, txin, present, rfl, at_i, rfl⟩
  have second := (consistent.links txin.prevout ⟨node'.ptx, j⟩).mpr
    ⟨hash', node', txin', present', rfl, at_j, same.symm⟩
  have sameLink := some.inj (first.symm.trans second)
  exact consistent.addresses hash hash' node node' present present' (congrArg CInPoint.ptx sameLink)

/-! ## Adding one transaction -/

theorem lookup_linkInputs (ptx : Nat) (o : COutPoint) (inpoint : CInPoint) :
    ∀ (k : Nat) (links : AList (fun _ : COutPoint => CInPoint)),
      (vin.map CTxIn.prevout).Nodup →
      (((vin.zipIdx k).foldl (fun links x => links.insert x.1.prevout ⟨ptx, x.2⟩) links).lookup o =
          some inpoint ↔
        (∃ j txin, vin[j]? = some txin ∧ txin.prevout = o ∧ inpoint = ⟨ptx, k + j⟩) ∨
          (o ∉ vin.map CTxIn.prevout ∧ links.lookup o = some inpoint)) := by
  induction vin with
  | nil => intro k links _; simp
  | cons first vin ih =>
    intro k links distinct
    obtain ⟨notMember, distinct⟩ := nodup_cons.mp distinct
    rw [zipIdx_cons, foldl_cons, ih (k + 1) _ distinct]
    constructor
    · rintro (⟨j, txin, inputAt, prevout, rfl⟩ | ⟨absent, found⟩)
      · exact Or.inl ⟨j + 1, txin, inputAt, prevout, by rw [Nat.add_assoc, Nat.add_comm 1]⟩
      · rcases lookup_insert_cases found with ⟨rfl, rfl⟩ | ⟨other, old⟩
        · exact Or.inl ⟨0, first, rfl, rfl, rfl⟩
        · exact Or.inr ⟨by simpa [other] using absent, old⟩
    · rintro (⟨j, txin, inputAt, prevout, rfl⟩ | ⟨absent, found⟩)
      · cases j with
        | zero =>
          have sameInput : first = txin := by simpa using inputAt
          subst sameInput
          exact Or.inr ⟨prevout ▸ notMember, by rw [← prevout, AList.lookup_insert]; rfl⟩
        | succ j =>
          exact Or.inl ⟨j, txin, by simpa using inputAt, prevout,
            by rw [Nat.add_assoc, Nat.add_comm 1]⟩
      · rw [map_cons, mem_cons, not_or] at absent
        exact Or.inr ⟨absent.2, (AList.lookup_insert_ne absent.1).trans found⟩

theorem hasConflict_eq_false (free : hasConflict pool tx = false) :
    ∀ o ∈ tx.vin.map CTxIn.prevout, pool.mapNextTx.lookup o = none := by
  intro o member
  obtain ⟨txin, inputs, rfl⟩ := List.mem_map.mp member
  have unlinked := List.any_eq_false.mp free txin inputs
  simpa using unlinked

theorem lookup_addUnchecked (absent : pool.mapTx.lookup hash = none) (tx : CTransaction)
    (other : Uint256) (node : Node) : (addUnchecked pool hash tx).mapTx.lookup other = some node ↔
      (other = hash ∧ node = ⟨pool.nextNode, tx⟩) ∨
        (other ≠ hash ∧ pool.mapTx.lookup other = some node) := by
  have address : nodeAddress pool hash = pool.nextNode := by simp [nodeAddress, absent]
  by_cases same : other = hash
  · subst same
    simp [addUnchecked, address, eq_comm]
  · simp [addUnchecked, AList.lookup_insert_ne same, same]

theorem consistent_addUnchecked (consistent : Consistent env pool)
    (absent : pool.mapTx.lookup (getTxHash env tx) = none)
    (distinct : (tx.vin.map CTxIn.prevout).Nodup) (free : hasConflict pool tx = false) :
    Consistent env (MemPool.addUnchecked pool (getTxHash env tx) tx) := by
  have address : nodeAddress pool (getTxHash env tx) = pool.nextNode := by
    simp [nodeAddress, absent]
  have unlinked := hasConflict_eq_false free
  have stored := lookup_addUnchecked absent tx
  refine ⟨?_, ?_, ?_, ?_⟩
  · intro hash node present
    rcases (stored hash node).mp present with ⟨rfl, rfl⟩ | ⟨_, older⟩
    · rfl
    · exact consistent.keyed hash node older
  · intro o inpoint
    have linked := lookup_linkInputs pool.nextNode o inpoint 0 pool.mapNextTx distinct
    simp only [MemPool.addUnchecked, linkInputs, address] at linked ⊢
    rw [linked]
    constructor
    · rintro (⟨j, txin, inputAt, prevout, rfl⟩ | ⟨_, older⟩)
      · exact ⟨getTxHash env tx, ⟨pool.nextNode, tx⟩, txin, by simp, rfl, by simpa using inputAt,
          prevout⟩
      · obtain ⟨hash, node, txin, present, rest⟩ := (consistent.links o inpoint).mp older
        have different : hash ≠ getTxHash env tx := by
          rintro rfl
          rw [absent] at present
          cases present
        exact ⟨hash, node, txin, (AList.lookup_insert_ne different).trans present, rest⟩
    · rintro ⟨hash, node, txin, present, samePtx, inputAt, prevout⟩
      rcases lookup_insert_cases present with ⟨rfl, rfl⟩ | ⟨_, old⟩
      · exact Or.inl ⟨inpoint.n, txin, inputAt, prevout, by
          cases inpoint; simpa using samePtx.symm⟩
      · have older := (consistent.links o inpoint).mpr
          ⟨hash, node, txin, old, samePtx, inputAt, prevout⟩
        refine Or.inr ⟨fun member => ?_, older⟩
        rw [unlinked o member] at older
        cases older
  · intro a b x y xAt yAt samePtx
    rcases (stored a x).mp xAt with ⟨rfl, rfl⟩ | ⟨_, xOld⟩ <;>
      rcases (stored b y).mp yAt with ⟨rfl, rfl⟩ | ⟨_, yOld⟩
    · rfl
    · exact absurd samePtx.symm (consistent.fresh b y yOld).ne
    · exact absurd samePtx (consistent.fresh a x xOld).ne
    · exact consistent.addresses a b x y xOld yOld samePtx
  · intro hash node present
    rcases (stored hash node).mp present with ⟨rfl, rfl⟩ | ⟨_, older⟩
    · exact Nat.lt_succ_self _
    · exact (consistent.fresh hash node older).trans (Nat.lt_succ_self _)

/-! ## Parts of a pool -/

/-- The rest of a pool after the transactions in `D` are gone. -/
structure Without (pool : CTxMemPool) (D : Uint256 → Prop) (rest : CTxMemPool) : Prop where
  erased : ∀ hash, D hash → rest.mapTx.lookup hash = none
  kept : ∀ hash, ¬D hash → rest.mapTx.lookup hash = pool.mapTx.lookup hash
  nextNode : rest.nextNode = pool.nextNode

/-- One pooled transaction spends an output of another. -/
def Feeds (pool : CTxMemPool) (parent child : Uint256) : Prop :=
  ∃ above below txin, pool.mapTx.lookup parent = some above ∧
    pool.mapTx.lookup child = some below ∧ txin ∈ below.tx.vin ∧ txin.prevout.hash = parent ∧
    txin.prevout.n.toNat < above.tx.vout.length

theorem Without.subset (part : Without pool D rest) (present : rest.mapTx.lookup hash = some node) :
    ¬D hash ∧ pool.mapTx.lookup hash = some node := by
  have outside : ¬D hash := fun inside => by
    rw [part.erased hash inside] at present
    cases present
  exact ⟨outside, part.kept hash outside ▸ present⟩

theorem Without.feeds (part : Without pool D rest) : Feeds rest = cut (Feeds pool) D := by
  funext parent child
  refine propext ⟨?_, ?_⟩
  · rintro ⟨above, below, txin, aboveAt, belowAt, input⟩
    obtain ⟨outside, aboveAt⟩ := part.subset aboveAt
    obtain ⟨outside', belowAt⟩ := part.subset belowAt
    exact ⟨⟨above, below, txin, aboveAt, belowAt, input⟩, outside, outside'⟩
  · rintro ⟨⟨above, below, txin, aboveAt, belowAt, input⟩, outside, outside'⟩
    exact ⟨above, below, txin, part.kept parent outside ▸ aboveAt,
      part.kept child outside' ▸ belowAt, input⟩

theorem without_nothing : Without pool (fun _ => False) pool :=
  ⟨fun _ impossible => impossible.elim, fun _ _ => rfl, rfl⟩

theorem Without.trans {middle : CTxMemPool} (first : Without pool D middle)
    (second : Without middle E rest) : Without pool (fun hash => D hash ∨ E hash) rest := by
  refine ⟨fun hash gone => ?_, fun hash stays => ?_, second.nextNode.trans first.nextNode⟩
  · by_cases later : E hash
    · exact second.erased hash later
    · rw [second.kept hash later]
      exact first.erased hash (gone.resolve_right later)
  · rw [second.kept hash fun later => stays (Or.inr later),
      first.kept hash fun earlier => stays (Or.inl earlier)]

theorem Without.congr (part : Without pool D rest) (same : ∀ hash, D hash ↔ E hash) :
    Without pool E rest :=
  ⟨fun hash gone => part.erased hash ((same hash).mpr gone),
    fun hash stays => part.kept hash fun gone => stays ((same hash).mp gone), part.nextNode⟩

theorem Without.keys_subset (part : Without pool D rest) :
    rest.mapTx.keys.toFinset ⊆ pool.mapTx.keys.toFinset := by
  intro hash member
  simp only [List.mem_toFinset, ← AList.mem_keys] at member ⊢
  obtain ⟨node, present⟩ := isSome_iff_exists.mp (AList.lookup_isSome.mpr member)
  exact AList.lookup_isSome.mp (by rw [(part.subset present).2]; rfl)

/-! ## Erasing one transaction -/

theorem lookup_foldl_erase (vin : List CTxIn) (o : COutPoint) :
    ∀ links : AList (fun _ : COutPoint => CInPoint),
      (vin.foldl (fun links txin => links.erase txin.prevout) links).lookup o =
        if o ∈ vin.map CTxIn.prevout then none else links.lookup o := by
  induction vin with
  | nil => intro links; simp
  | cons txin vin ih =>
    intro links
    rw [foldl_cons, ih]
    by_cases same : o = txin.prevout
    · subst same; simp
    · simp [AList.lookup_erase_ne same, same]

theorem without_eraseTx (pool : CTxMemPool) (hash : Uint256) (vin : List CTxIn) :
    Without pool (· = hash) (eraseTx pool hash vin) := by
  refine ⟨fun other same => ?_, fun other different => ?_, rfl⟩
  · rw [same]
    exact AList.lookup_erase hash pool.mapTx
  · exact AList.lookup_erase_ne different

theorem Consistent.eraseTx (consistent : Consistent env pool)
    (present : pool.mapTx.lookup hash = some node) (inputs : node.tx.vin = vin) :
    Consistent env (MemPool.eraseTx pool hash vin) := by
  have part := without_eraseTx pool hash vin
  refine ⟨fun other found at_ => consistent.keyed other found (part.subset at_).2, ?_,
    fun a b x y xAt yAt => consistent.addresses a b x y (part.subset xAt).2 (part.subset yAt).2,
    fun other found at_ => consistent.fresh other found (part.subset at_).2⟩
  intro o inpoint
  have linked : (MemPool.eraseTx pool hash vin).mapNextTx.lookup o =
      if o ∈ vin.map CTxIn.prevout then none else pool.mapNextTx.lookup o :=
    lookup_foldl_erase vin o pool.mapNextTx
  rw [linked]
  constructor
  · intro found
    split_ifs at found with spent
    obtain ⟨other, owner, txin, ownerAt, address, inputAt, prevout⟩ :=
      (consistent.links o inpoint).mp found
    have different : other ≠ hash := by
      rintro rfl
      have sameNode : owner = node := some.inj (ownerAt.symm.trans present)
      subst sameNode
      rw [inputs] at inputAt
      exact spent (List.mem_map.mpr ⟨txin, mem_of_getElem? inputAt, prevout⟩)
    exact ⟨other, owner, txin, (part.kept other different).trans ownerAt, address, inputAt, prevout⟩
  · rintro ⟨other, owner, txin, ownerAt, address, inputAt, prevout⟩
    obtain ⟨different, ownerAt⟩ := part.subset ownerAt
    rw [if_neg]
    · exact (consistent.links o inpoint).mpr
        ⟨other, owner, txin, ownerAt, address, inputAt, prevout⟩
    · intro spent
      obtain ⟨txin', member', prevout'⟩ := List.mem_map.mp spent
      exact different (consistent.disjoint ownerAt present (mem_of_getElem? inputAt)
        (inputs ▸ member') (prevout.trans prevout'.symm))

/-! ## References -/

/-- A live reference to a transaction; the pooled transaction of that hash, if there is
one, has the same inputs and outputs. -/
structure Refers (env : Env) (pool : CTxMemPool) (ref : TxRef) (hash : Uint256)
    (tx : CTransaction) : Prop where
  reads : readRef pool ref = .ok tx
  hashed : getTxHash env tx = hash
  stored : ∀ node, pool.mapTx.lookup hash = some node →
    node.tx.vin = tx.vin ∧ node.tx.vout = tx.vout

theorem refers_node (consistent : Consistent env pool)
    (present : pool.mapTx.lookup hash = some node) :
    Refers env pool (.node node.ptx) hash node.tx := by
  refine ⟨?_, consistent.keyed hash node present, fun other otherAt => ?_⟩
  · rw [readRef, (deref_eq_some_iff consistent).mpr ⟨hash, node, present, rfl, rfl⟩]
  · rw [some.inj (otherAt.symm.trans present)]
    exact ⟨rfl, rfl⟩

theorem Refers.without (refers : Refers env pool ref hash tx) (consistent : Consistent env pool)
    (restConsistent : Consistent env rest) (part : Without pool D rest) (outside : ¬D hash) :
    Refers env rest ref hash tx := by
  refine ⟨?_, refers.hashed, fun node present => refers.stored node (part.subset present).2⟩
  cases ref with
  | own tx' => exact refers.reads
  | node ptx =>
    have reads := refers.reads
    simp only [readRef] at reads ⊢
    split at reads
    · rename_i tx' found
      cases reads
      obtain ⟨other, node, present, address, content⟩ := (deref_eq_some_iff consistent).mp found
      have sameHash : other = hash := by
        rw [← refers.hashed, ← content, consistent.keyed other node present]
      subst sameHash
      rw [(deref_eq_some_iff restConsistent).mpr
        ⟨other, node, (part.kept other outside).trans present, address, content⟩]
    · cases reads

/-! ## Recursive removal -/

/-- How a call may end: in a pool with some property, or stuck for a reason, but never
on a dangling pointer. -/
inductive Outcome (Done : CTxMemPool → Prop) (Stuck : Prop) : Except Fault CTxMemPool → Prop where
  | returned {rest : CTxMemPool} (done : Done rest) : Outcome Done Stuck (.ok rest)
  | stuck (reason : Stuck) : Outcome Done Stuck (.error .nonterminating)

theorem Outcome.mono {Done' : CTxMemPool → Prop} {Stuck' : Prop} {result : Except Fault CTxMemPool}
    (outcome : Outcome Done Stuck result) (done : ∀ rest, Done rest → Done' rest)
    (stuck : Stuck → Stuck') : Outcome Done' Stuck' result := by
  cases outcome with
  | returned holds => exact .returned (done _ holds)
  | stuck reason => exact .stuck (stuck reason)

theorem Outcome.done (outcome : Outcome Done Stuck (.ok rest)) : Done rest := by
  cases outcome with
  | returned done => exact done

theorem Outcome.foldlM {A : Type} {step : CTxMemPool → A → Except Fault CTxMemPool}
    (Inv : List A → CTxMemPool → Prop) (xs : List A)
    (pass : ∀ (done : List A) (x : A) (pool : CTxMemPool), x ∈ xs → Inv done pool →
      Outcome (Inv (x :: done)) Stuck (step pool x)) :
    ∀ (done : List A) (pool : CTxMemPool), Inv done pool →
      Outcome (Inv (xs.reverse ++ done)) Stuck (xs.foldlM step pool) := by
  induction xs with
  | nil => intro done pool holds; exact .returned holds
  | cons x xs ih =>
    intro done pool holds
    have first := pass done x pool mem_cons_self holds
    rw [foldlM_cons]
    generalize step pool x = result at first
    cases first with
    | stuck reason => exact .stuck reason
    | @returned next entered =>
      rw [reverse_cons, append_assoc]
      exact ih (fun done y pool member =>
        pass done y pool (mem_cons_of_mem _ member)) (x :: done) next entered

/-- A recursive `remove` has cut the transaction with all below it, or the fuel did not
last: the descent is infinite or there was too little. -/
def RemoveOutcome (env : Env) (pool : CTxMemPool) (hash : Uint256) (fuel : Nat) :
    Except Fault CTxMemPool → Prop :=
  Outcome (fun rest => Consistent env rest ∧ Without pool (ReflTransGen (Feeds pool) hash) rest ∧
      Grounded (Feeds pool) hash)
    (Grounded (Feeds pool) hash →
      fuel ≤ countBelow pool.mapTx.keys.toFinset (Feeds pool) hash)

/-- The state of the loop over the outputs of `hash`: grounded nodes strictly below it
are gone, with all that is below them. -/
structure Cutting (env : Env) (pool : CTxMemPool) (hash : Uint256) (D : Uint256 → Prop)
    (current : CTxMemPool) : Prop where
  consistent : Consistent env current
  part : Without pool D current
  closed : Closed (Feeds pool) D
  grounded : ∀ h, D h → Grounded (Feeds pool) h
  below : ∀ h, D h → TransGen (Feeds pool) hash h

theorem Cutting.outside (cutting : Cutting env pool hash D current) : ¬D hash := fun inside =>
  (cutting.grounded hash inside).not_cycle (cutting.below hash inside)

theorem Cutting.child {child : Uint256} (cutting : Cutting env pool hash D current)
    (step : Feeds pool hash child) (restConsistent : Consistent env rest)
    (part : Without current (ReflTransGen (Feeds current) child) rest)
    (grounded : Grounded (Feeds current) child) :
    Cutting env pool hash (fun h => D h ∨ ReflTransGen (Feeds pool) child h) rest := by
  rw [cutting.part.feeds] at part grounded
  have childGrounded : Grounded (Feeds pool) child := .of_cut cutting.grounded grounded
  refine ⟨restConsistent, (cutting.part.trans part).congr fun h => ⟨?_, ?_⟩, ?_, ?_, ?_⟩
  · exact Or.imp_right below_of_cut
  · rintro (inside | below)
    · exact Or.inl inside
    · exact below_cut cutting.closed below
  · rintro a b next (inside | below)
    · exact Or.inl (cutting.closed a b next inside)
    · exact Or.inr (below.tail next)
  · rintro h (inside | below)
    · exact cutting.grounded h inside
    · clear part
      induction below with
      | refl => exact childGrounded
      | tail _ next ih => exact ih.below next
  · rintro h (inside | below)
    · exact cutting.below h inside
    · exact TransGen.head' step below

section Loop
variable {fuel : Nat}
variable {above : Node}

/-- The loop invariant: all spenders of the outputs visited so far are gone. -/
def Visited (env : Env) (pool : CTxMemPool) (hash : Uint256) (done : List Nat)
    (current : CTxMemPool) : Prop :=
  ∃ D, Cutting env pool hash D current ∧ ∀ i ∈ done, ∀ child below txin,
    pool.mapTx.lookup child = some below → txin ∈ below.tx.vin →
      txin.prevout = ⟨hash, UInt32.ofNat i⟩ → D child

theorem removeSpender_spec
    (recursion : ∀ pool ref hash tx, Consistent env pool → Refers env pool ref hash tx →
      RemoveOutcome env pool hash fuel (remove env true fuel ref pool))
    (consistent : Consistent env pool) (refers : Refers env pool ref hash tx)
    (present : pool.mapTx.lookup hash = some above) {done : List Nat}
    (visited : Visited env pool hash done current) {i : Nat} (bound : i < tx.vout.length) :
    Outcome (Visited env pool hash (i :: done))
      (Grounded (Feeds pool) hash →
        fuel + 1 ≤ countBelow pool.mapTx.keys.toFinset (Feeds pool) hash)
      (removeSpender (remove env true fuel) hash ref current i) := by
  obtain ⟨D, cutting, before⟩ := visited
  have alive := (refers.without consistent cutting.consistent cutting.part cutting.outside).reads
  simp only [removeSpender, alive]
  cases link : current.mapNextTx.lookup ⟨hash, UInt32.ofNat i⟩ with
  | none =>
    refine .returned ⟨D, cutting, forall_mem_cons.mpr ⟨?_, before⟩⟩
    -- a spender that is still there would be linked
    intro child below txin childAt member spends
    by_contra outside
    obtain ⟨n, inputAt⟩ := mem_iff_getElem?.mp member
    have linked := (cutting.consistent.links ⟨hash, UInt32.ofNat i⟩ ⟨below.ptx, n⟩).mpr
      ⟨child, below, txin, (cutting.part.kept child outside).trans childAt, rfl, inputAt, spends⟩
    rw [link] at linked
    cases linked
  | some inpoint =>
    obtain ⟨child, below, txin, childAt, address, inputAt, spends⟩ :=
      (cutting.consistent.links _ inpoint).mp link
    have step : Feeds pool hash child := by
      refine ⟨above, below, txin, present, (cutting.part.subset childAt).2,
        mem_of_getElem? inputAt, by rw [spends], ?_⟩
      rw [spends, (refers.stored above present).2]
      exact (Nat.mod_le i (2 ^ 32)).trans_lt bound
    refine (recursion current (.node inpoint.ptx) child below.tx cutting.consistent
      (address ▸ refers_node cutting.consistent childAt)).mono ?_ ?_
    · rintro rest ⟨restConsistent, part, grounded⟩
      refine ⟨_, cutting.child step restConsistent part grounded,
        forall_mem_cons.mpr ⟨?_, fun j member other otherNode otherIn otherAt input spent =>
          Or.inl (before j member other otherNode otherIn otherAt input spent)⟩⟩
      intro other otherNode otherIn otherAt member otherSpends
      have same := consistent.disjoint otherAt (cutting.part.subset childAt).2 member
        (mem_of_getElem? inputAt) (otherSpends.trans spends.symm)
      rw [same]
      exact Or.inr .refl
    · intro few grounded
      rw [cutting.part.feeds] at few
      have childGrounded := grounded.below step
      have member : hash ∈ pool.mapTx.keys.toFinset := by
        rw [List.mem_toFinset, ← AList.mem_keys, ← AList.lookup_isSome, present]
        rfl
      exact (Nat.succ_le_succ (few childGrounded.cut)).trans
        (countBelow_lt member cutting.part.keys_subset step childGrounded)

theorem Visited.below (refers : Refers env pool ref hash tx)
    (visited : Visited env pool hash ((List.range tx.vout.length).reverse ++ []) current) :
    Cutting env pool hash (TransGen (Feeds pool) hash) current := by
  obtain ⟨D, cutting, done⟩ := visited
  have children : ∀ child, Feeds pool hash child → D child := by
    rintro child ⟨parent, below, txin, parentAt, childAt, member, spends, bound⟩
    rw [(refers.stored parent parentAt).2] at bound
    refine done txin.prevout.n.toNat (by simpa using bound) child below txin childAt member ?_
    rw [← spends, UInt32.ofNat_toNat]
  have exactly : ∀ h, D h ↔ TransGen (Feeds pool) hash h := fun h =>
    ⟨cutting.below h, fun below => by
      induction below with
      | single step => exact children _ step
      | tail _ step ih => exact cutting.closed _ _ step ih⟩
  exact ⟨cutting.consistent, cutting.part.congr exactly,
    fun a b step inside => (exactly b).mp (cutting.closed a b step ((exactly a).mpr inside)),
    fun h inside => cutting.grounded h ((exactly h).mpr inside), fun _ inside => inside⟩

end Loop

theorem remove_spec {fuel : Nat} : ∀ pool ref hash tx, Consistent env pool →
    Refers env pool ref hash tx →
    RemoveOutcome env pool hash fuel (remove env true fuel ref pool) := by
  induction fuel with
  | zero => intro pool ref hash tx _ _; exact .stuck fun _ => Nat.zero_le _
  | succ fuel ih =>
    intro pool ref hash tx consistent refers
    have hashed := refers.hashed
    subst hashed
    simp only [remove, refers.reads, if_true]
    cases present : pool.mapTx.lookup (getTxHash env tx) with
    | none =>
      have leaf : ∀ h, ¬Feeds pool (getTxHash env tx) h := by
        rintro h ⟨above, _, _, aboveAt, _⟩
        rw [present] at aboveAt
        cases aboveAt
      refine .returned ⟨consistent, ⟨fun h below => ?_, fun _ _ => rfl, rfl⟩,
        .intro _ fun h step => (leaf h step).elim⟩
      rcases ReflTransGen.cases_head below with same | ⟨next, step, _⟩
      · rw [← same, present]
      · exact (leaf next step).elim
    | some above =>
      have start : Visited env pool (getTxHash env tx) [] pool :=
        ⟨fun _ => False, ⟨consistent, without_nothing, fun _ _ _ inside => inside,
          fun _ inside => inside.elim, fun _ inside => inside.elim⟩, by simp⟩
      have loop := Outcome.foldlM (Visited env pool (getTxHash env tx)) (List.range tx.vout.length)
        (fun done i current member visited => removeSpender_spec ih consistent
          refers present visited (List.mem_range.mp member)) [] pool start
      simp only [isSome_some, if_true]
      generalize (List.range tx.vout.length).foldlM
        (removeSpender (remove env true fuel) (getTxHash env tx) ref) pool = result at loop
      cases loop with
      | stuck reason => exact .stuck reason
      | @returned rest loop =>
        have cutting := Visited.below refers loop
        have alive := refers.without consistent cutting.consistent cutting.part cutting.outside
        have still : rest.mapTx.lookup (getTxHash env tx) = some above :=
          (cutting.part.kept _ cutting.outside).trans present
        simp only [alive.reads]
        refine .returned ⟨cutting.consistent.eraseTx still (refers.stored above present).1,
          (cutting.part.trans (without_eraseTx rest _ tx.vin)).congr fun h => ?_,
          .intro _ fun h step => cutting.grounded h (.single step)⟩
        rw [reflTransGen_iff_eq_or_transGen]
        exact or_comm

theorem remove_outcome {fRecursive : Bool} (consistent : Consistent env pool)
    (refers : Refers env pool ref hash tx) : Outcome (fun rest => Consistent env rest ∧ Without pool
        (fun h => if fRecursive then ReflTransGen (Feeds pool) hash h else h = hash) rest)
      (∃ h, TransGen (Feeds pool) h h) (remove env fRecursive (removeFuel pool) ref pool) := by
  cases fRecursive with
  | true =>
    refine (remove_spec pool ref hash tx consistent refers).mono
      (fun rest done => ⟨done.1, by simpa using done.2.1⟩) (fun few => ?_)
    by_cases grounded : Grounded (Feeds pool) hash
    · have enough : pool.mapTx.keys.toFinset.card < removeFuel pool :=
        Nat.lt_succ_of_le (toFinset_card_le _)
      exact absurd ((few grounded).trans countBelow_le) (Nat.not_le.mpr enough)
    · exact exists_cycle grounded
  | false =>
    have hashed := refers.hashed
    subst hashed
    simp only [removeFuel, remove, refers.reads, Bool.false_eq_true, if_false]
    cases present : pool.mapTx.lookup (getTxHash env tx) with
    | none =>
      refine .returned ⟨consistent, ⟨fun h same => ?_, fun _ _ => rfl, rfl⟩⟩
      rw [same, present]
    | some node =>
      simp only [isSome_some, if_true]
      exact .returned ⟨consistent.eraseTx present (refers.stored node present).1,
        without_eraseTx pool _ tx.vin⟩

end SynergyPool.Removal
