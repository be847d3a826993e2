import SynergyFormal.Chain.MoneySupply
import SynergyFormal.Chain.LoadBlockIndex

/-!
# What a restart finds

The records of a node describe its index (`Recorded`), so the first pass of
`LoadBlockIndex` makes one object per entry, with everything but trust and checksum, and
the second one meets every parent before its children.  The checks of the best chain pass
because the blocks passed them when they were connected.
-/

set_option autoImplicit false

namespace SynergyChain.Restart

open SynergyLib SynergyData SynergyLedger
open Wire Loop Session SynergyLib.Tree Transaction Block TxDB Wallet ConnectBlock
  SynergyPool.MemPool BestChain StakeModifier Switch Pointers
open SynergyChain.MoneySupply (paidEnv paidBlock greedyBlock)
open SynergyChain.ProcessBlock hiding greedyBlock
open SynergyChain.BlockMap SynergyChain.IndexRecords SynergyChain.LoadBlockIndex
open Option hiding map

/-! ## Reading the records -/

/-- The entry of a block as the database has it. -/
def diskEntry (env : Env) (node : IndexNode) (pindex : CBlockIndex) : IndexEntry :=
  { entryOf env node.stake node.chain.ledger pindex with
    nMint := ((indexView node.chain.ledger.txdb (getBlockHash pindex)).map
      CDiskBlockIndex.nMint).getD 0
    nMoneySupply := ((indexView node.chain.ledger.txdb (getBlockHash pindex)).map
      CDiskBlockIndex.nMoneySupply).getD 0 }

/-- The entry before trust and checksum are computed. -/
def blankEntry (env : Env) (node : IndexNode) (pindex : CBlockIndex) : IndexEntry :=
  { diskEntry env node pindex with nChainTrust := 0, nStakeModifierChecksum := 0 }

/-- A record holds all there is to know of an entry. -/
structure Holds (env : Env) (args : LoadArgs) (node : IndexNode) (pindex : CBlockIndex)
    (disk : DiskIndex) : Prop where
  hash : getDiskHash env args disk = getBlockHash pindex
  entry : readEntry disk = blankEntry env node pindex
  flag : hasStakeFlag disk.nFlags = isProofOfStake (blockOf pindex)
  stake : disk.stake.getD nullStake = getProofOfStake (blockOf pindex)
  hashPrev : disk.hashPrev ≠ 0 → ∃ p, IndexedIn node.chain p ∧ getBlockHash p = disk.hashPrev
  hashNext : disk.hashNext ≠ 0 → ∃ p, IndexedIn node.chain p ∧ getBlockHash p = disk.hashNext

variable {link : Option CBlockIndex} {hash other : Uint256} {map : IndexMap}

theorem pointer_linkHash (nonzero : ∀ p, link = some p → getBlockHash p ≠ 0) :
    pointer (linkHash link) = link.map getBlockHash := by
  cases link with
  | none => rfl
  | some p => exact if_neg (nonzero p rfl)

theorem linkHash_ne_zero (nonzero : linkHash link ≠ 0) :
    ∃ p, link = some p ∧ getBlockHash p = linkHash link := by
  cases link with
  | none => exact absurd rfl nonzero
  | some p => exact ⟨p, rfl, rfl⟩

variable {records : List DiskIndex} {pindex : CBlockIndex} {Indexed : CBlockIndex → Prop}
variable {env : Env} {args : LoadArgs} {start : Ledger} {genesis : BlockRecord} {node : IndexNode}

theorem indexed_pprev (tree : BlockTree env genesis Indexed) (member : Indexed pindex) :
    ∀ p, pprev pindex = some p → Indexed p := by
  intro p same
  cases pindex with
  | root last => cases same
  | grow q last =>
    cases same
    exact (tree.parents p last member).1

theorem indexed_links (tree : BlockTree env genesis Indexed) {tip : CBlockIndex}
    (best : Indexed tip) (pindex : CBlockIndex) : ∀ p, links tip pindex = some p → Indexed p := by
  intro p linked
  have inside : pindex ∈ path tip := by
    by_contra outside
    rw [links_outside outside] at linked
    cases linked
  rcases links_inside inside with rfl | ⟨record, found, onward⟩
  · rw [links_eq_none _ (le_refl _)] at linked
    cases linked
  · rw [found, some.injEq] at linked
    exact linked ▸ tree.onPath best _ onward

section Restart
variable (restartable : Restartable env args start genesis node)
include restartable

theorem store_eq_indexView (hash : Uint256) :
    asBlockIndex (node.chain.ledger.txdb.store (.blockIndex hash)) =
      indexView node.chain.ledger.txdb hash := by
  have closed := restartable.persisted.grown.settled.standing.closed
  simp [indexView, SynergyLib.BatchStore.view, closed]

variable (origin : genesis.block.hashPrevBlock = 0)
  (named : args.hashGenesisBlock = genesis.phashBlock)

include origin in
theorem headerHash_record (member : IndexedIn node.chain pindex) :
    headerHash env (blockOf pindex).nVersion (linkHash (pprev pindex))
      (blockOf pindex).hashMerkleRoot (blockOf pindex).nTime (blockOf pindex).nBits
      (blockOf pindex).nNonce = getBlockHash pindex := by
  have tree := restartable.persisted.grown.tree
  have prev : linkHash (pprev pindex) = (blockOf pindex).hashPrevBlock := by
    cases pindex with
    | root record =>
      obtain rfl : record = genesis := by simpa [rootOf] using tree.rooted _ member
      exact origin.symm
    | grow p record => exact (tree.parents p record member).2.symm
  rw [prev, ← tree.hashed pindex member]
  rfl

include origin in
theorem holds_recordAt (member : IndexedIn node.chain pindex) :
    ∃ disk, recordAt env node (getBlockHash pindex) = some disk ∧
      Holds env args node pindex disk := by
  have tree := restartable.persisted.grown.tree
  obtain ⟨record, present, describes⟩ := restartable.persisted.recorded.entry pindex member
  have parents := indexed_pprev tree member
  have successors := indexed_links tree restartable.persisted.grown.best pindex
  refine ⟨diskIndex env (node.diskStake (getBlockHash pindex)) record, ?_, ?_⟩
  · rw [recordAt, store_eq_indexView restartable, present]
    rfl
  have header := headerHash_record restartable origin member
  have fields := restartable.fields pindex member
  have block : record.record.block = blockOf pindex := congrArg BlockRecord.block describes.record
  have forward := restartable.persisted.grown.settled.standing.forward
  have flag : hasStakeFlag (diskIndex env (node.diskStake (getBlockHash pindex)) record).nFlags =
      isProofOfStake (blockOf pindex) := by
    rw [← block]
    exact hasStakeFlag_flagsOf
  have stake : (diskIndex env (node.diskStake (getBlockHash pindex)) record).stake.getD nullStake =
      getProofOfStake (blockOf pindex) := by
    simp only [diskIndex, hasStakeFlag_flagsOf, block]
    split_ifs with kind
    · rfl
    · exact (getProofOfStake_of_work (by simpa using kind)).symm
  refine ⟨?_, ?_, flag, stake, fun nonzero => ?_, fun nonzero => ?_⟩
  · have same : (diskIndex env (node.diskStake (getBlockHash pindex)) record).blockHash =
        getBlockHash pindex := by
      simp only [diskIndex, block, describes.hashPrev]
      exact header
    unfold getDiskHash
    split_ifs
    · exact same
    · exact same
  · have toPrev := pointer_linkHash fun p same => restartable.nonzero p (parents p same)
    have toNext := pointer_linkHash fun p linked => restartable.nonzero p (successors p linked)
    simp only [readEntry, blankEntry, diskEntry, entryOf, stake, present, map_some,
      getD_some, forward, ← toPrev, ← toNext]
    simp only [diskIndex, describes.record, describes.hashPrev, describes.hashNext,
      describes.nHeight, fields]
    rfl
  · have named : linkHash (pprev pindex) ≠ 0 := fun zero => nonzero (describes.hashPrev.trans zero)
    obtain ⟨p, same, hash⟩ := linkHash_ne_zero named
    exact ⟨p, parents p same, hash.trans describes.hashPrev.symm⟩
  · have named : linkHash (links node.chain.pindexBest pindex) ≠ 0 := fun zero =>
      nonzero (describes.hashNext.trans zero)
    obtain ⟨p, linked, hash⟩ := linkHash_ne_zero named
    exact ⟨p, successors p linked, hash.trans describes.hashNext.symm⟩

/-- The iterator meets every block index record once. -/
def Visits (env : Env) (node : IndexNode) (records : List DiskIndex) : Prop :=
  ∃ hashes : List Uint256, hashes.Nodup ∧
    (∀ hash, hash ∈ hashes ↔ (recordAt env node hash).isSome = true) ∧
    hashes.filterMap (recordAt env node) = records

theorem indexed_of_recordAt (present : (recordAt env node hash).isSome = true) :
    ∃ p, IndexedIn node.chain p ∧ getBlockHash p = hash := by
  refine restartable.persisted.recorded.only hash ?_
  rw [recordAt, isSome_map, store_eq_indexView restartable] at present
  exact present

include origin in
theorem exists_visits : ∃ records, Visits env node records := by
  refine ⟨_, node.chain.mapBlockIndex.keys, AList.keys_nodup _, fun hash => ⟨fun key => ?_,
    fun present => ?_⟩, rfl⟩
  · have known := AList.lookup_isSome.mpr (AList.mem_keys.mpr key)
    obtain ⟨p, found⟩ := isSome_iff_exists.mp known
    obtain rfl := restartable.persisted.grown.keyed hash p found
    obtain ⟨disk, record, _⟩ := holds_recordAt restartable origin found
    exact isSome_of_eq_some record
  · obtain ⟨p, member, rfl⟩ := indexed_of_recordAt restartable present
    exact AList.mem_keys.mp (AList.lookup_isSome.mp (isSome_of_eq_some member))

include origin in
theorem Visits.holds (visits : Visits env node records) :
    (∀ disk ∈ records, ∃ p, IndexedIn node.chain p ∧ Holds env args node p disk) ∧
      ∀ p, IndexedIn node.chain p → ∃ disk ∈ records, Holds env args node p disk := by
  obtain ⟨hashes, _, complete, rfl⟩ := visits
  refine ⟨fun disk member => ?_, fun p member => ?_⟩
  · obtain ⟨hash, _, found⟩ := List.mem_filterMap.mp member
    obtain ⟨p, indexed, rfl⟩ := indexed_of_recordAt restartable (isSome_of_eq_some found)
    obtain ⟨other, record, holds⟩ := holds_recordAt restartable origin indexed
    obtain rfl : other = disk := some.inj (record.symm.trans found)
    exact ⟨p, indexed, holds⟩
  · obtain ⟨disk, record, holds⟩ := holds_recordAt restartable origin member
    have visited := (complete (getBlockHash p)).mpr (isSome_of_eq_some record)
    exact ⟨disk, List.mem_filterMap.mpr ⟨_, visited, record⟩, holds⟩

/-! ## The first pass -/

omit restartable in
theorem lookup_insertBlockIndex {entry : IndexEntry} (present : map.lookup other = some entry) :
    (insertBlockIndex map hash).lookup other = some entry := by
  unfold insertBlockIndex
  split_ifs with null known
  · exact present
  · exact present
  · have apart : other ≠ hash := by
      rintro rfl
      exact known (isSome_of_eq_some present)
    rw [AList.lookup_insert_ne apart]
    exact present

omit restartable in
theorem mem_insertBlockIndex (member : other ∈ insertBlockIndex map hash) :
    other ∈ map ∨ hash ≠ 0 ∧ other = hash := by
  unfold insertBlockIndex at member
  split_ifs at member with null known
  · exact Or.inl member
  · exact Or.inl member
  · rcases (AList.mem_insert map).mp member with same | old
    · exact Or.inr ⟨null, same⟩
    · exact Or.inl old

/-- The objects after some records. -/
structure Gathered (env : Env) (args : LoadArgs) (node : IndexNode) (done : List DiskIndex)
    (loading : Loading) : Prop where
  entry : ∀ p disk, disk ∈ done → IndexedIn node.chain p → Holds env args node p disk →
    loading.mapBlockIndex.lookup (getBlockHash p) = some (blankEntry env node p)
  only : ∀ hash ∈ loading.mapBlockIndex, ∃ p, IndexedIn node.chain p ∧ getBlockHash p = hash
  stakes : ∀ stake, stake ∈ loading.setStakeSeen ↔ ∃ disk ∈ done,
    hasStakeFlag disk.nFlags = true ∧ disk.stake.getD nullStake = stake

variable {p : CBlockIndex}

theorem Gathered.pass {done : List DiskIndex} {loading : Loading}
    (gathered : Gathered env args node done loading) {disk : DiskIndex}
    (member : IndexedIn node.chain p) (holds : Holds env args node p disk) :
    ∃ next, loadRecord env args loading disk = some next ∧
      Gathered env args node (done ++ [disk]) next := by
  refine ⟨_, if_neg (holds.hash ▸ restartable.nonzero p member), ?_, ?_, fun stake => ?_⟩
  · intro q other inside indexed held
    dsimp only
    rw [holds.hash, holds.entry]
    by_cases same : getBlockHash q = getBlockHash p
    · obtain rfl := restartable.persisted.grown.tree.distinct q p indexed member same
      exact AList.lookup_insert _
    · rw [AList.lookup_insert_ne same]
      rcases List.mem_append.mp inside with old | new
      · exact lookup_insertBlockIndex (lookup_insertBlockIndex (lookup_insertBlockIndex
          (gathered.entry q other old indexed held)))
      · obtain rfl := List.mem_singleton.mp new
        exact absurd (held.hash.symm.trans holds.hash) same
  · intro hash inside
    dsimp only at inside
    rw [holds.hash] at inside
    rcases (AList.mem_insert _).mp inside with own | inside
    · exact ⟨p, member, own.symm⟩
    rcases mem_insertBlockIndex inside with inside | ⟨nonzero, rfl⟩
    · rcases mem_insertBlockIndex inside with inside | ⟨nonzero, rfl⟩
      · rcases mem_insertBlockIndex inside with old | ⟨_, rfl⟩
        · exact gathered.only hash old
        · exact ⟨p, member, rfl⟩
      · exact holds.hashPrev nonzero
    · exact holds.hashNext nonzero
  · have earlier := gathered.stakes stake
    dsimp only
    split_ifs with kind
    · rw [Finset.mem_insert, earlier, eq_comm (a := stake)]
      simp [kind, or_comm, or_and_right, exists_or]
    · rw [earlier]
      simp [kind, or_and_right, exists_or]

include origin in
theorem gathered_all (visits : Visits env node records) :
    ∃ loading, records.foldlM (loadRecord env args) ⟨∅, ∅, none⟩ = some loading ∧
      (∀ p, IndexedIn node.chain p →
        loading.mapBlockIndex.lookup (getBlockHash p) = some (blankEntry env node p)) ∧
      (∀ hash ∈ loading.mapBlockIndex, ∃ p, IndexedIn node.chain p ∧ getBlockHash p = hash) ∧
      loading.setStakeSeen = node.setStakeSeen := by
  obtain ⟨each, all⟩ := visits.holds restartable origin
  have initially : Gathered env args node [] ⟨∅, ∅, none⟩ := ⟨by simp, by simp, by simp⟩
  obtain ⟨loading, run, gathered⟩ := foldlM_done (Gathered env args node) records
    (fun done disk rest state split gathered => by
      obtain ⟨p, member, holds⟩ := each disk (by simp [split])
      exact gathered.pass restartable member holds) initially
  refine ⟨loading, run, fun p member => ?_, gathered.only, ?_⟩
  · obtain ⟨disk, inside, holds⟩ := all p member
    exact gathered.entry p disk inside member holds
  · ext stake
    rw [gathered.stakes, restartable.stakes]
    constructor
    · rintro ⟨disk, inside, kind, same⟩
      obtain ⟨p, member, holds⟩ := each disk inside
      exact ⟨p, member, holds.flag ▸ kind, holds.stake.symm.trans same⟩
    · rintro ⟨p, member, kind, same⟩
      obtain ⟨disk, inside, holds⟩ := all p member
      exact ⟨disk, inside, holds.flag.trans kind, holds.stake.trans same⟩

/-! ## The second pass -/

instance (args : LoadArgs) (map : IndexMap) : Std.Total (lower args map) where
  total first second := by
    unfold lower
    omega

instance (args : LoadArgs) (map : IndexMap) : IsTrans Uint256 (lower args map) where
  trans first second third one two := by
    unfold lower at *
    omega

/-- The objects when trust and checksum of some are computed. -/
structure Trusted (env : Env) (node : IndexNode) (done : List Uint256) (map : IndexMap) : Prop where
  computed : ∀ p, IndexedIn node.chain p → getBlockHash p ∈ done →
    map.lookup (getBlockHash p) = some (diskEntry env node p)
  waiting : ∀ p, IndexedIn node.chain p → getBlockHash p ∉ done →
    map.lookup (getBlockHash p) = some (blankEntry env node p)
  only : ∀ hash ∈ map, ∃ p, IndexedIn node.chain p ∧ getBlockHash p = hash

include named in
theorem computeTrust_eq (member : IndexedIn node.chain p)
    (blank : map.lookup (getBlockHash p) = some (blankEntry env node p))
    (parent : ∀ q, pprev p = some q → map.lookup (getBlockHash q) = some (diskEntry env node q)) :
    computeTrust env args map (getBlockHash p) =
      some (map.insert (getBlockHash p) (diskEntry env node p)) := by
  have passes := restartable.checksums p member
  unfold computeTrust
  rw [blank]
  dsimp only
  cases p with
  | root record =>
    obtain rfl : record = genesis := by
      simpa [rootOf] using restartable.persisted.grown.tree.rooted _ member
    rw [if_neg (fun alone => alone.2 named.symm)]
    dsimp only [blankEntry, diskEntry, entryOf, pprev, parent_root, map_none, bind_none]
    refine (if_pos passes).trans ?_
    simp only [getD_none, zero_add]
    rfl
  | grow q record =>
    have above : ((blankEntry env node (.grow q record)).pprev.bind fun hash => map.lookup hash) =
        some (diskEntry env node q) := parent q rfl
    rw [if_neg (fun alone => absurd alone.1 (some_ne_none _)), above]
    exact if_pos passes

include named in
theorem Trusted.pass {done : List Uint256} (trusted : Trusted env node done map)
    (member : IndexedIn node.chain p) (fresh : getBlockHash p ∉ done)
    (parents : ∀ q, pprev p = some q → IndexedIn node.chain q ∧ getBlockHash q ∈ done) :
    ∃ next, computeTrust env args map (getBlockHash p) = some next ∧
      Trusted env node (done ++ [getBlockHash p]) next := by
  have distinct := restartable.persisted.grown.tree.distinct
  refine ⟨_, computeTrust_eq restartable named member (trusted.waiting p member fresh)
    fun q above => trusted.computed q (parents q above).1 (parents q above).2, ?_, ?_, ?_⟩
  · intro q indexed inside
    by_cases same : getBlockHash q = getBlockHash p
    · obtain rfl := distinct q p indexed member same
      exact AList.lookup_insert _
    · rw [AList.lookup_insert_ne same]
      refine trusted.computed q indexed ((List.mem_append.mp inside).resolve_right fun last => ?_)
      exact same (List.mem_singleton.mp last)
  · intro q indexed outside
    rw [List.mem_append, List.mem_singleton, not_or] at outside
    rw [AList.lookup_insert_ne outside.2]
    exact trusted.waiting q indexed outside.1
  · intro hash inside
    rcases (AList.mem_insert map).mp inside with own | old
    · exact ⟨p, member, own.symm⟩
    · exact trusted.only hash old

include named in
theorem trusted_all {blank : IndexMap}
    (entries : ∀ p, IndexedIn node.chain p →
      blank.lookup (getBlockHash p) = some (blankEntry env node p))
    (only : ∀ hash ∈ blank, ∃ p, IndexedIn node.chain p ∧ getBlockHash p = hash) :
    ∃ map, (vSortedByHeight args blank).foldlM (computeTrust env args) blank = some map ∧
      (∀ p, IndexedIn node.chain p →
        map.lookup (getBlockHash p) = some (diskEntry env node p)) ∧
      ∀ hash ∈ map, ∃ p, IndexedIn node.chain p ∧ getBlockHash p = hash := by
  have tree := restartable.persisted.grown.tree
  have perm : (vSortedByHeight args blank).Perm blank.keys := List.perm_insertionSort _ _
  have sorted : (vSortedByHeight args blank).Pairwise (lower args blank) :=
    List.pairwise_insertionSort _ _
  have nodup : (vSortedByHeight args blank).Nodup := perm.nodup_iff.mpr (AList.keys_nodup blank)
  have listed : ∀ p, IndexedIn node.chain p → getBlockHash p ∈ vSortedByHeight args blank := by
    intro p member
    refine perm.mem_iff.mpr (AList.mem_keys.mp (AList.lookup_isSome.mp ?_))
    exact isSome_of_eq_some (entries p member)
  have height : ∀ p, IndexedIn node.chain p → heightIn blank (getBlockHash p) = nHeight p := by
    intro p member
    rw [heightIn, entries p member]
    rfl
  have initially : Trusted env node [] blank :=
    ⟨fun p _ inside => absurd inside List.not_mem_nil, fun p member _ => entries p member, only⟩
  obtain ⟨map, run, trusted⟩ := foldlM_done (Trusted env node) (vSortedByHeight args blank)
    (fun done hash rest map split trusted => by
      have key : hash ∈ blank.keys := perm.mem_iff.mp (by simp [split])
      obtain ⟨p, member, rfl⟩ := only hash (AList.mem_keys.mpr key)
      rw [split] at nodup sorted
      have fresh : getBlockHash p ∉ done := fun inside =>
        (List.nodup_append.mp nodup).2.2 _ inside _ List.mem_cons_self rfl
      refine trusted.pass restartable named member fresh fun q above => ?_
      cases p with
      | root record => cases above
      | grow parent record =>
        cases above
        have indexed := (tree.parents q record member).1
        refine ⟨indexed, mem_of_pairwise sorted (split ▸ listed q indexed) (fun same => ?_) ?_⟩
        · have equal := tree.distinct q _ indexed member same
          exact grow_not_mem_path q record (equal ▸ self_mem_path q)
        · rw [lower, height q indexed, height _ member]
          simp only [nHeight, depth_grow]
          omega) initially
  exact ⟨map, run, fun p member => trusted.computed p member (listed p member), trusted.only⟩

/-! ## The checks of the best chain -/

theorem verifyBlocks_path
    (entries : ∀ p, IndexedIn node.chain p →
      map.lookup (getBlockHash p) = some (diskEntry env node p)) (lowest : Int) (p : CBlockIndex) :
    p ∈ path node.chain.pindexBest → ∀ fuel, nHeight p < fuel →
      verifyBlocks env args map lowest fuel (getBlockHash p) none = some none := by
  have grown := restartable.persisted.grown
  induction p with
  | root record =>
    intro inside fuel enough
    obtain ⟨fuel, rfl⟩ := Nat.exists_eq_succ_of_ne_zero (Nat.ne_of_gt enough)
    simp only [verifyBlocks, entries _ (grown.tree.onPath grown.best _ inside)]
    rfl
  | grow q record ih =>
    intro inside fuel enough
    have member := grown.tree.onPath grown.best _ inside
    obtain ⟨fuel, rfl⟩ := Nat.exists_eq_succ_of_ne_zero (Nat.ne_of_gt (Nat.zero_lt_of_lt enough))
    have below := ih (path_trans (mem_path_grow.mpr (Or.inl (self_mem_path q))) inside) fuel
      (by simp only [nHeight, depth_grow] at enough ⊢; omega)
    have read := restartable.files q record member
    have hashed : getHash env record.block = getBlockHash (.grow q record) :=
      grown.tree.hashed _ member
    have passes := grown.settled.standing.connected.checked q record inside
    simp only [verifyBlocks, entries _ member]
    dsimp only [diskEntry, entryOf, pprev, parent_grow, map_some, value_grow]
    rw [read]
    dsimp only
    rw [if_pos hashed, if_pos passes, below]
    exact ite_self _

theorem nHeight_lt_length
    (entries : ∀ p, IndexedIn node.chain p →
      map.lookup (getBlockHash p) = some (diskEntry env node p)) :
    nHeight node.chain.pindexBest < map.keys.length := by
  have grown := restartable.persisted.grown
  have inside := grown.tree.onPath grown.best
  have nodup : ((path node.chain.pindexBest).map getBlockHash).Nodup :=
    nodup_path.map_on fun p first q second same =>
      grown.tree.distinct p q (inside p first) (inside q second) same
  have known : (path node.chain.pindexBest).map getBlockHash ⊆ map.keys := by
    intro hash listed
    obtain ⟨p, onPath, rfl⟩ := List.mem_map.mp listed
    refine AList.mem_keys.mp (AList.lookup_isSome.mp ?_)
    exact isSome_of_eq_some (entries p (inside p onPath))
  have shorter := (List.subperm_of_subset nodup known).length_le
  rw [List.length_map, length_path] at shorter
  exact shorter

/-! ## Restarts -/

/-- The block index that was loaded is the one in memory.  The supply fields off the
active chain are the ones that were written last. -/
structure Rebuilt (env : Env) (node : IndexNode) (loaded : Loaded) : Prop where
  hashes : ∀ hash, hash ∈ loaded.mapBlockIndex ↔ hash ∈ node.chain.mapBlockIndex
  entries : ∀ p, IndexedIn node.chain p → ∃ nMint nMoneySupply,
    loaded.mapBlockIndex.lookup (getBlockHash p) =
      some { entryOf env node.stake node.chain.ledger p with
        nMint := nMint
        nMoneySupply := nMoneySupply }
  active : ∀ p ∈ path node.chain.pindexBest, loaded.mapBlockIndex.lookup (getBlockHash p) =
    some (entryOf env node.stake node.chain.ledger p)
  hashBestChain : loaded.hashBestChain = node.chain.hashBestChain
  nBestHeight : loaded.nBestHeight = node.chain.ledger.nBestHeight
  nBestChainTrust : loaded.nBestChainTrust = node.chain.nBestChainTrust
  setStakeSeen : loaded.setStakeSeen = node.setStakeSeen
  kept : loaded.pindexFork = none

theorem diskEntry_active (inside : p ∈ path node.chain.pindexBest) :
    diskEntry env node p = entryOf env node.stake node.chain.ledger p := by
  have grown := restartable.persisted.grown
  obtain ⟨disk, present, describes⟩ := restartable.persisted.recorded.entry p
    (grown.tree.onPath grown.best p inside)
  rw [diskEntry, present]
  simp only [map_some, getD_some, describes.nMint inside, describes.nMoneySupply inside]
  rfl

include origin named in
theorem rebuilt_of_restartable (visits : Visits env node records) :
    ∃ loaded, loadBlockIndex env args records (readHashBestChain node) = some loaded ∧
      Rebuilt env node loaded := by
  have grown := restartable.persisted.grown
  obtain ⟨loading, first, blank, onlyBlank, stakes⟩ := gathered_all restartable origin visits
  obtain ⟨map, second, entries, only⟩ := trusted_all restartable named blank onlyBlank
  have best : readHashBestChain node = some (getBlockHash node.chain.pindexBest) := by
    rw [readHashBestChain, grown.settled.standing.record]
  have checks := fun lowest => verifyBlocks_path restartable entries lowest _ (self_mem_path _) _
    (nHeight_lt_length restartable entries)
  have run : loadBlockIndex env args records (readHashBestChain node) =
      some ⟨map, loading.setStakeSeen, getBlockHash node.chain.pindexBest,
        nHeight node.chain.pindexBest, nChainTrust node.chain.pindexBest, none⟩ := by
    simp only [loadBlockIndex, first, second, best, entries _ grown.best, checks,
      bind_eq_bind, bind_some]
    rfl
  refine ⟨_, run, fun hash => ⟨fun inside => ?_, fun inside => ?_⟩, fun p member => ?_,
    fun p inside => ?_, grown.settled.memory.symm, restartable.persisted.height.symm,
    grown.trust.symm, stakes, rfl⟩
  · obtain ⟨p, member, rfl⟩ := only hash inside
    exact AList.lookup_isSome.mp (isSome_of_eq_some member)
  · obtain ⟨p, found⟩ := isSome_iff_exists.mp (AList.lookup_isSome.mpr inside)
    obtain rfl := grown.keyed hash p found
    exact AList.lookup_isSome.mp (isSome_of_eq_some (entries p found))
  · exact ⟨_, _, entries p member⟩
  · rw [← diskEntry_active restartable inside]
    exact entries p (grown.tree.onPath grown.best p inside)

end Restart

/-- After every run of calls that meet `RestartStep` the database can be read in some order,
and in whatever order it is read, the index comes back. -/
theorem restart_rebuilds_index {env : Env} {args : LoadArgs} {genesis : BlockRecord}
    {hashProof : Uint256} {wallets : List CWallet} {node : IndexNode}
    (hashed : getHash env genesis.block = genesis.phashBlock)
    (origin : genesis.block.hashPrevBlock = 0) (nonzero : genesis.phashBlock ≠ 0)
    (named : args.hashGenesisBlock = genesis.phashBlock)
    (checkpoint : checkStakeModifierCheckpoints env 0
      (checksumOf env (fun _ => ⟨0, true, hashProof⟩) (.root genesis)) = true)
    (reached : Reached (indexStep env) (RestartStep env args)
      (startNode genesis hashProof wallets) node) :
    (∃ records, Visits env node records) ∧ ∀ records, Visits env node records →
      ∃ loaded, loadBlockIndex env args records (readHashBestChain node) = some loaded ∧
        Rebuilt env node loaded := by
  have restartable := reached.invariant
    (Restartable env args (genesisState genesis wallets).ledger genesis)
    (restartable_start hashProof wallets hashed nonzero checkpoint)
    (fun _ _ _ before step run => before.step step run)
  exact ⟨exists_visits restartable origin, fun _ visits =>
    rebuilt_of_restartable restartable origin named visits⟩

/-! ### Two branches, and a postponed block that is turned down -/

/-- The bytes of the checksum of the genesis block. -/
def genesisStamp : Bytes :=
  writeUint32 (flagsOf toyGenesis.block toyGenesis.phashBlock true) ++ writeUint256 0 ++ leBytes 8 0

/-- A hash under which the genesis block passes its checkpoint. -/
def restartEnv : Env :=
  { paidEnv with
    hash := fun bytes =>
      if bytes = genesisStamp then BitVec.ofNat 256 (0xfd11f4e7 * 2 ^ 224) else toyHash bytes }

def rivalIndex : CBlockIndex := toyChild (.root toyGenesis) [toyCoinbase 1 50000000]

def rivalFirst : NewBlock := ⟨1, 3000, blockOf rivalIndex⟩

def rivalSecond : NewBlock := ⟨1, 4000, blockOf (toyChild rivalIndex [toyCoinbase 2 50000000])⟩

def restartArgs : LoadArgs where
  hashGenesisBlock := toyGenesis.phashBlock
  fUseFastIndex := true
  adjustedTime := 1432700000
  address := fun hash => hash.toNat
  checkBlocks := 2500
  readBlock := fun nFile nBlockPos =>
    ([paidBlock, greedyBlock, rivalFirst, rivalSecond].find? fun new =>
      new.nFile == nFile && new.nBlockPos == nBlockPos).map NewBlock.block

def restartStart : IndexNode := startNode toyGenesis toyGenesis.phashBlock []

/-- A call at a fixed time. -/
def callAt (adjustedTime : Int) (new : NewBlock) : IndexCall := ⟨new, 0, fun _ => adjustedTime⟩

/-- Takes a block if no postponed block is turned down. -/
def plainly (node : IndexNode) (new : NewBlock) : Option IndexNode :=
  if (node.chain.mapBlockIndex.lookup new.block.hashPrevBlock).isSome = true ∧
      getHash restartEnv new.block ≠ 0 ∧
      restartArgs.readBlock new.nFile new.nBlockPos = some new.block ∧
      PostponedAccepted restartEnv (coreOps restartEnv (fun _ => 1432700000) fun _ => true)
        node.chain new then
    indexStep restartEnv node (callAt 1432700000 new)
  else none

theorem plainly_sound {next : IndexNode} {new : NewBlock} (moved : plainly node new = some next) :
    ∃ call, RestartStep restartEnv restartArgs node call ∧
      indexStep restartEnv node call = some next := by
  unfold plainly at moved
  split_ifs at moved with plain
  obtain ⟨parent, nonzero, file, connects⟩ := plain
  exact ⟨callAt 1432700000 new, ⟨parent, nonzero, file, fun _ => le_refl _, connects⟩, moved⟩

/-- The second branch takes over, and a restart finds both. -/
theorem restart_rebuilds_branches : ∃ node,
    [paidBlock, rivalFirst, rivalSecond].foldlM plainly restartStart = some node ∧
      node.chain.mapBlockIndex.keys.length = 4 ∧
      blockOf node.chain.pindexBest = rivalSecond.block ∧
      (∃ records, Visits restartEnv node records) ∧ ∀ records, Visits restartEnv node records →
        ∃ loaded, loadBlockIndex restartEnv restartArgs records (readHashBestChain node) =
          some loaded ∧ Rebuilt restartEnv node loaded := by
  obtain ⟨node, run, size, best⟩ : ∃ node ∈ [paidBlock, rivalFirst, rivalSecond].foldlM plainly
      restartStart, node.chain.mapBlockIndex.keys.length = 4 ∧
        blockOf node.chain.pindexBest = rivalSecond.block := by decide +kernel
  have reached : Reached (indexStep restartEnv) (RestartStep restartEnv restartArgs)
      restartStart node := .of_foldlM (fun _ _ _ moved => plainly_sound moved) _ .refl run
  exact ⟨node, run, size, best, restart_rebuilds_index (by decide +kernel) rfl (by decide +kernel)
    rfl (by decide +kernel) reached⟩

theorem hashBestChain_of_load {best : Uint256} {loaded : Loaded}
    (run : loadBlockIndex env args records (some best) = some loaded) :
    loaded.hashBestChain = best := by
  unfold loadBlockIndex at run
  obtain ⟨loading, _, run⟩ := bind_eq_some_iff.mp run
  obtain ⟨map, _, run⟩ := bind_eq_some_iff.mp run
  obtain ⟨entry, _, run⟩ := bind_eq_some_iff.mp run
  obtain ⟨pindexFork, _, run⟩ := bind_eq_some_iff.mp run
  cases run
  rfl

/-- `paidBlock` comes ahead of the clock; `greedyBlock` is postponed behind it and turned down,
so memory names `greedyBlock` as the best block and the database `paidBlock`. -/
theorem restart_moves_best_block : ∃ node,
    [callAt 1432690000 paidBlock, callAt 1432700000 greedyBlock].foldlM (indexStep restartEnv)
        restartStart = some node ∧
      node.chain.hashBestChain = getBlockHash greedyIndex ∧
      (loadBlockIndex restartEnv restartArgs
        (node.chain.mapBlockIndex.keys.filterMap (recordAt restartEnv node))
        (readHashBestChain node)).map Loaded.hashBestChain = some (getBlockHash paidIndex) ∧
      ∀ records loaded,
        loadBlockIndex restartEnv restartArgs records (readHashBestChain node) = some loaded →
        ¬Rebuilt restartEnv node loaded := by
  obtain ⟨node, run, memory, database, found⟩ : ∃ node ∈ [callAt 1432690000 paidBlock,
      callAt 1432700000 greedyBlock].foldlM (indexStep restartEnv) restartStart,
        node.chain.hashBestChain = getBlockHash greedyIndex ∧
        readHashBestChain node = some (getBlockHash paidIndex) ∧
        (loadBlockIndex restartEnv restartArgs
          (node.chain.mapBlockIndex.keys.filterMap (recordAt restartEnv node))
          (readHashBestChain node)).map Loaded.hashBestChain = some (getBlockHash paidIndex) := by
    decide +kernel
  refine ⟨node, run, memory, found, fun records loaded load rebuilt => ?_⟩
  have different : getBlockHash paidIndex ≠ getBlockHash greedyIndex := by decide +kernel
  rw [database] at load
  exact different ((hashBestChain_of_load load).symm.trans (rebuilt.hashBestChain.trans memory))

end SynergyChain.Restart
