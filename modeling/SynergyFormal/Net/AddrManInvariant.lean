import SynergyFormal.Net.AddrMan
import SynergyFormal.Lib.Directory
import SynergyFormal.Lib.Buckets

/-!
# The invariant of the address manager

The invariant has two halves.  `Indexed` is about the three ways to find an entry: by id,
by address and by its place in the random order.  `Shelved` is about the buckets; it can
leave out some entries, which is what holds between two statements of an operation that
moves them.  The lemmas say what the steps that all operations are made of keep: editing an
entry, changing the random order, and giving up an entry of a bucket.
-/

set_option autoImplicit false

namespace SynergyNet.AddrManInvariant

open SynergyLib
open Option Function Directory Buckets AddrMan
open scoped BigOperators

def addrOf (am : CAddrMan) (n : ℕ) : Option CNetAddr :=
  (am.mapInfo n).map fun info => info.toCNetAddr

def posOf (am : CAddrMan) (n : ℕ) : Option ℕ := (am.mapInfo n).bind CAddrInfo.nRandomPos

structure Indexed (am : CAddrMan) : Prop where
  below : ∀ n, am.nIdCount ≤ n → am.mapInfo n = none
  /-- `mapAddr` and the addresses of the entries are inverse to each other. -/
  addresses : Inverse am.mapAddr (addrOf am)
  /-- `vRandom[i]` is `n` exactly when `nRandomPos` of `n` is `i`. -/
  positions : Locates am.vRandom (posOf am)
  placed : ∀ n info, am.mapInfo n = some info → ∃ i, info.nRandomPos = some i

section Shelves
variable (vvTried : Fin triedBucketCount → List ℕ) (vvNew : Fin newBucketCount → Finset ℕ)

structure InTried (n : ℕ) (info : CAddrInfo) : Prop where
  flag : info.fInTried = true
  unreferenced : info.nRefCount = 0
  /-- In one tried bucket, at one place of it. -/
  once : places vvTried n = 1
  notNew : refs vvNew n = 0

structure InNew (n : ℕ) (info : CAddrInfo) : Prop where
  flag : info.fInTried = false
  referenced : 1 ≤ info.nRefCount
  bounded : info.nRefCount ≤ newBucketsPerAddress
  /-- The number of new buckets with the entry. -/
  counted : info.nRefCount = refs vvNew n
  notTried : places vvTried n = 0

def Filed (n : ℕ) (info : CAddrInfo) : Prop :=
  InTried vvTried vvNew n info ∨ InNew vvTried vvNew n info

end Shelves

variable {info edited : CAddrInfo} {n : ℕ} {am am' : CAddrMan} {hole : Set ℕ}
  {b : Fin newBucketCount}

variable {vvTried : Fin triedBucketCount → List ℕ} {vvNew : Fin newBucketCount → Finset ℕ} {q p : ℕ}

theorem Filed.congr {other : CAddrInfo} (filed : Filed vvTried vvNew n info)
    (flags : other.fInTried = info.fInTried) (counts : other.nRefCount = info.nRefCount) :
    Filed vvTried vvNew n other := by
  rcases filed with tried | new
  · exact Or.inl ⟨flags.trans tried.flag, counts.trans tried.unreferenced, tried.once, tried.notNew⟩
  · exact Or.inr ⟨flags.trans new.flag, counts ▸ new.referenced, counts ▸ new.bounded,
      counts.trans new.counted, new.notTried⟩

/-- The entries outside `hole` are on their shelves. -/
structure Shelved (hole : Set ℕ) (am : CAddrMan) : Prop where
  filed : ∀ n info, am.mapInfo n = some info → n ∉ hole → Filed am.vvTried am.vvNew n info
  absent : ∀ n, am.mapInfo n = none → places am.vvTried n = 0 ∧ refs am.vvNew n = 0
  newRoom : ∀ b, (am.vvNew b).card ≤ newBucketSize
  triedRoom : ∀ b, (am.vvTried b).length ≤ triedBucketSize

section Shelves
variable (shelved : Shelved hole am)
include shelved

theorem Shelved.present_of_tried {b : Fin triedBucketCount} (member : n ∈ am.vvTried b) :
    ∃ info, am.mapInfo n = some info := by
  by_contra missing
  have none : am.mapInfo n = none := eq_none_iff_forall_ne_some.mpr (by simpa using missing)
  exact places_eq_zero.mp (shelved.absent n none).1 b member

theorem Shelved.present_of_new (member : n ∈ am.vvNew b) : ∃ info, am.mapInfo n = some info := by
  by_contra missing
  have none : am.mapInfo n = none := eq_none_iff_forall_ne_some.mpr (by simpa using missing)
  exact refs_eq_zero.mp (shelved.absent n none).2 b member

theorem Shelved.mono {larger : Set ℕ} (subset : hole ⊆ larger) : Shelved larger am :=
  ⟨fun n info entry kept => shelved.filed n info entry fun out => kept (subset out),
    shelved.absent, shelved.newRoom, shelved.triedRoom⟩

theorem Shelved.inNew (member : n ∈ am.vvNew b) (kept : n ∉ hole) :
    ∃ info, am.mapInfo n = some info ∧ InNew am.vvTried am.vvNew n info := by
  obtain ⟨info, entry⟩ := shelved.present_of_new member
  rcases shelved.filed n info entry kept with tried | new
  · exact absurd member (refs_eq_zero.mp tried.notNew b)
  · exact ⟨info, entry, new⟩

theorem Shelved.room_update {bucket : Finset ℕ} (room : bucket.card ≤ newBucketSize) :
    ∀ c, (update am.vvNew b bucket c).card ≤ newBucketSize :=
  (forall_update_iff am.vvNew fun _ set => set.card ≤ newBucketSize).mpr
    ⟨room, fun c _ => shelved.newRoom c⟩

variable (present : ∀ m ∈ hole, am.mapInfo m ≠ none)
include present

theorem Shelved.rebucket (sameRefs : ∀ n ∉ hole, refs vvNew n = refs am.vvNew n)
    (samePlaces : ∀ n ∉ hole, places vvTried n = places am.vvTried n)
    (newRoom : ∀ b, (vvNew b).card ≤ newBucketSize)
    (triedRoom : ∀ b, (vvTried b).length ≤ triedBucketSize) :
    Shelved hole { am with vvNew, vvTried } := by
  refine ⟨fun n info entry kept => ?_, fun n missing => ?_, newRoom, triedRoom⟩
  · rcases shelved.filed n info entry kept with tried | new
    · exact Or.inl ⟨tried.flag, tried.unreferenced, (samePlaces n kept).trans tried.once,
        (sameRefs n kept).trans tried.notNew⟩
    · refine Or.inr ⟨new.flag, new.referenced, new.bounded, ?_,
        (samePlaces n kept).trans new.notTried⟩
      rw [sameRefs n kept]
      exact new.counted
  · have kept : n ∉ hole := fun out => present n out missing
    obtain ⟨noPlace, noRef⟩ := shelved.absent n missing
    exact ⟨(samePlaces n kept).trans noPlace, (sameRefs n kept).trans noRef⟩

theorem Shelved.setTried {k : Fin triedBucketCount} {list : List ℕ}
    (sameCount : ∀ m ∉ hole, list.count m = (am.vvTried k).count m)
    (room : list.length ≤ triedBucketSize) :
    Shelved hole { am with vvTried := update am.vvTried k list } := by
  refine shelved.rebucket present (fun _ _ => rfl) (fun m kept => ?_) shelved.newRoom (fun c => ?_)
  · have moved := places_update am.vvTried k list m
    rw [sameCount m kept] at moved
    omega
  · exact (forall_update_iff am.vvTried fun _ list => list.length ≤ triedBucketSize).mpr
      ⟨room, fun c _ => shelved.triedRoom c⟩ c

theorem Shelved.eraseRef (b : Fin newBucketCount) (out : n ∈ hole) :
    Shelved hole { am with vvNew := update am.vvNew b ((am.vvNew b).erase n) } := by
  refine shelved.rebucket present (fun m kept => ?_) (fun _ _ => rfl) (fun c => ?_)
    shelved.triedRoom
  · exact refs_erase_of_ne fun same => kept (same ▸ out)
  · exact shelved.room_update (Finset.card_erase_le.trans (shelved.newRoom b)) c

theorem Shelved.insertRef (out : n ∈ hole) (space : (am.vvNew b).card < newBucketSize) :
    Shelved hole { am with vvNew := update am.vvNew b (insert n (am.vvNew b)) } := by
  refine shelved.rebucket present (fun m kept => ?_) (fun _ _ => rfl) (fun c => ?_)
    shelved.triedRoom
  · exact refs_insert_of_ne fun same => kept (same ▸ out)
  · exact shelved.room_update ((Finset.card_insert_le n _).trans space) c

end Shelves

def triedIds (am : CAddrMan) : Finset ℕ :=
  (Finset.range am.nIdCount).filter fun n => (am.mapInfo n).map CAddrInfo.fInTried = some true

def newIds (am : CAddrMan) : Finset ℕ :=
  (Finset.range am.nIdCount).filter fun n => (am.mapInfo n).map CAddrInfo.fInTried = some false

/-- The invariant of the class. -/
structure Consistent (am : CAddrMan) : Prop where
  indexed : Indexed am
  shelved : Shelved ∅ am
  nTried : am.nTried = (triedIds am).card
  nNew : am.nNew = (newIds am).card

/-! ## The counters -/

/-- The counters against the buckets and the random order. -/
structure Counted (am : CAddrMan) : Prop where
  tried : am.nTried = ((∑ b, (am.vvTried b).length : ℕ) : ℤ)
  total : am.nTried + am.nNew = am.vRandom.length

section Counting
variable (indexed : Indexed am)
include indexed

theorem Indexed.lt_nIdCount (entry : am.mapInfo n = some info) : n < am.nIdCount := by
  by_contra outside
  simp [indexed.below n (Nat.le_of_not_lt outside)] at entry

/-- The buckets and the counters are no part of it. -/
theorem Indexed.tables {nTried nNew : ℤ} : Indexed { am with nTried, nNew, vvTried, vvNew } :=
  ⟨indexed.below, indexed.addresses, indexed.positions, indexed.placed⟩

theorem card_triedIds (shelved : Shelved ∅ am) :
    (triedIds am).card = ∑ b, (am.vvTried b).length := by
  rw [sum_length fun b n member => by
    obtain ⟨info, entry⟩ := shelved.present_of_tried member
    exact Finset.mem_range.mpr (indexed.lt_nIdCount entry)]
  rw [triedIds, Finset.card_filter]
  apply Finset.sum_congr rfl
  intro n _
  cases entry : am.mapInfo n with
  | none => simp [(shelved.absent n entry).1]
  | some info =>
    rcases shelved.filed n info entry (Set.notMem_empty n) with tried | new
    · simp [tried.flag, tried.once]
    · simp [new.flag, new.notTried]

theorem Indexed.mem_vRandom : n ∈ am.vRandom ↔ ∃ info, am.mapInfo n = some info := by
  rw [indexed.positions.mem_iff]
  constructor
  · rintro ⟨i, position⟩
    obtain ⟨info, entry, _⟩ := bind_eq_some_iff.mp position
    exact ⟨info, entry⟩
  · rintro ⟨info, entry⟩
    obtain ⟨i, place⟩ := indexed.placed n info entry
    exact ⟨i, bind_eq_some_iff.mpr ⟨info, entry, place⟩⟩

theorem card_ids : (triedIds am).card + (newIds am).card = am.vRandom.length := by
  have disjoint : Disjoint (triedIds am) (newIds am) := by
    apply Finset.disjoint_filter.mpr
    intro n _ isTried isNew
    simp [isTried] at isNew
  have everything : triedIds am ∪ newIds am = am.vRandom.toFinset := by
    ext n
    rw [List.mem_toFinset, indexed.mem_vRandom, Finset.mem_union, triedIds, newIds,
      Finset.mem_filter, Finset.mem_filter]
    cases entry : am.mapInfo n with
    | none => simp
    | some info =>
      have below := indexed.lt_nIdCount entry
      cases flag : info.fInTried <;> simp [below, flag]
  rw [← Finset.card_union_of_disjoint disjoint, everything,
    List.toFinset_card_of_nodup indexed.positions.nodup]

theorem Consistent.of_counted (shelved : Shelved ∅ am) (counted : Counted am) : Consistent am := by
  have tried := card_triedIds indexed shelved
  have total := card_ids indexed
  refine ⟨indexed, shelved, ?_, ?_⟩
  · rw [counted.tried, tried]
  · have split := counted.total
    rw [counted.tried] at split
    omega

end Counting

theorem Consistent.counted (consistent : Consistent am) : Counted am := by
  have tried := card_triedIds consistent.indexed consistent.shelved
  have total := card_ids consistent.indexed
  refine ⟨?_, ?_⟩
  · rw [consistent.nTried, tried]
  · rw [consistent.nTried, consistent.nNew]
    omega

theorem Shelved.close {larger : Set ℕ} (shelved : Shelved larger am)
    (filed : ∀ n ∈ larger, n ∉ hole → ∀ info, am.mapInfo n = some info →
      Filed am.vvTried am.vvNew n info) : Shelved hole am := by
  refine ⟨fun n info entry kept => ?_, shelved.absent, shelved.newRoom, shelved.triedRoom⟩
  by_cases out : n ∈ larger
  · exact filed n out kept info entry
  · exact shelved.filed n info entry out

/-! ## Editing an entry -/

section Entry
variable (entry : am.mapInfo n = some info)
include entry

theorem addrOf_setInfo (same : edited.toCNetAddr = info.toCNetAddr) :
    addrOf (setInfo am n edited) = addrOf am :=
  (comp_update (Option.map _) am.mapInfo n (some edited)).trans
    (update_eq_self_iff.mpr (by simp [entry, same]))

theorem posOf_setInfo (same : edited.nRandomPos = info.nRandomPos) :
    posOf (setInfo am n edited) = posOf am :=
  (comp_update (Option.bind · _) am.mapInfo n (some edited)).trans
    (update_eq_self_iff.mpr (by simp [entry, same]))

theorem setInfo_isNone {m : ℕ} :
    (setInfo am n edited).mapInfo m = none ↔ am.mapInfo m = none := by
  by_cases here : m = n
  · subst here
    simp [setInfo, entry]
  · simp [setInfo, here]

theorem Indexed.edit (indexed : Indexed am) (sameAddr : edited.toCNetAddr = info.toCNetAddr)
    (samePos : edited.nRandomPos = info.nRandomPos) : Indexed (setInfo am n edited) := by
  refine ⟨fun m high => ?_, ?_, ?_, fun m other found => ?_⟩
  · exact (setInfo_isNone entry).mpr (indexed.below m high)
  · rw [addrOf_setInfo entry sameAddr]
    exact indexed.addresses
  · rw [posOf_setInfo entry samePos]
    exact indexed.positions
  · by_cases here : m = n
    · subst here
      obtain ⟨i, place⟩ := indexed.placed m info entry
      simp only [setInfo, update_self, some.injEq] at found
      exact ⟨i, by rw [← found, samePos, place]⟩
    · simp only [setInfo, update_of_ne here] at found
      exact indexed.placed m other found

theorem Shelved.edit (shelved : Shelved hole am) (out : n ∈ hole) :
    Shelved hole (setInfo am n edited) := by
  refine ⟨fun m other found kept => ?_, fun m missing => ?_, shelved.newRoom, shelved.triedRoom⟩
  · have here : m ≠ n := fun same => kept (same ▸ out)
    simp only [setInfo, update_of_ne here] at found
    exact shelved.filed m other found kept
  · exact shelved.absent m ((setInfo_isNone entry).mp missing)

theorem Shelved.refresh (shelved : Shelved ∅ am)
    (sameFlag : edited.fInTried = info.fInTried) (sameCount : edited.nRefCount = info.nRefCount) :
    Shelved ∅ (setInfo am n edited) := by
  apply ((shelved.mono (Set.empty_subset {n})).edit entry rfl).close
  rintro m rfl _ other found
  simp only [setInfo, update_self, some.injEq] at found
  subst found
  exact (shelved.filed m info entry (Set.notMem_empty m)).congr sameFlag sameCount

theorem Consistent.refresh (consistent : Consistent am)
    (sameAddr : edited.toCNetAddr = info.toCNetAddr) (samePos : edited.nRandomPos = info.nRandomPos)
    (sameFlag : edited.fInTried = info.fInTried) (sameCount : edited.nRefCount = info.nRefCount) :
    Consistent (setInfo am n edited) :=
  Consistent.of_counted (consistent.indexed.edit entry sameAddr samePos)
    (consistent.shelved.refresh entry sameFlag sameCount)
    ⟨consistent.counted.tried, consistent.counted.total⟩

theorem Shelved.eraseRefs (shelved : Shelved ∅ am) :
    Shelved {n} { am with vvNew := fun b => (am.vvNew b).erase n } := by
  refine (shelved.mono (Set.empty_subset {n})).rebucket ?_ (fun m kept => ?_) (fun _ _ => rfl)
    (fun b => ?_) shelved.triedRoom
  · rintro m rfl
    simp [entry]
  · exact refs_eraseAll_of_ne kept
  · exact (Finset.card_erase_le).trans (shelved.newRoom b)

end Entry

/-! ## Changing the random order -/

def unplaced (info : CAddrInfo) : CAddrInfo := { info with nRandomPos := none }

/-- Another order of the ids, and nothing else. -/
structure Reordered (am am' : CAddrMan) : Prop where
  entries : ∀ n, (am'.mapInfo n).map unplaced = (am.mapInfo n).map unplaced
  nKey : am'.nKey = am.nKey
  nIdCount : am'.nIdCount = am.nIdCount
  mapAddr : am'.mapAddr = am.mapAddr
  length : am'.vRandom.length = am.vRandom.length
  nTried : am'.nTried = am.nTried
  vvTried : am'.vvTried = am.vvTried
  nNew : am'.nNew = am.nNew
  vvNew : am'.vvNew = am.vvNew

theorem Reordered.refl (am : CAddrMan) : Reordered am am :=
  ⟨fun _ => rfl, rfl, rfl, rfl, rfl, rfl, rfl, rfl, rfl⟩

theorem Reordered.trans {am'' : CAddrMan} (first : Reordered am am') (second : Reordered am' am'') :
    Reordered am am'' where
  entries n := (second.entries n).trans (first.entries n)
  nKey := second.nKey.trans first.nKey
  nIdCount := second.nIdCount.trans first.nIdCount
  mapAddr := second.mapAddr.trans first.mapAddr
  length := second.length.trans first.length
  nTried := second.nTried.trans first.nTried
  vvTried := second.vvTried.trans first.vvTried
  nNew := second.nNew.trans first.nNew
  vvNew := second.vvNew.trans first.vvNew

section Reordered
variable (reordered : Reordered am am')
include reordered

theorem Reordered.eq_none : am'.mapInfo n = none ↔ am.mapInfo n = none := by
  rw [← map_eq_none_iff (f := unplaced), reordered.entries n, map_eq_none_iff]

theorem Reordered.entry (found : am'.mapInfo n = some info) :
    ∃ before, am.mapInfo n = some before ∧ unplaced info = unplaced before := by
  have same := reordered.entries n
  rw [found, map_some, eq_comm, map_eq_some_iff] at same
  obtain ⟨before, entry, equal⟩ := same
  exact ⟨before, entry, equal.symm⟩

theorem Reordered.shelved (shelved : Shelved hole am) : Shelved hole am' := by
  refine ⟨fun n info found kept => ?_, fun n missing => ?_, fun b => ?_, fun b => ?_⟩
  · obtain ⟨before, entry, same⟩ := reordered.entry found
    have flags : (unplaced info).fInTried = (unplaced before).fInTried := by rw [same]
    have counts : (unplaced info).nRefCount = (unplaced before).nRefCount := by rw [same]
    rw [reordered.vvTried, reordered.vvNew]
    exact (shelved.filed n before entry kept).congr flags counts
  · rw [reordered.vvTried, reordered.vvNew]
    exact shelved.absent n (reordered.eq_none.mp missing)
  · rw [reordered.vvNew]
    exact shelved.newRoom b
  · rw [reordered.vvTried]
    exact shelved.triedRoom b

theorem Reordered.addrOf : addrOf am' = addrOf am := by
  funext n
  have same := congrArg (Option.map fun info : CAddrInfo => info.toCNetAddr) (reordered.entries n)
  rw [Option.map_map, Option.map_map] at same
  exact same

theorem Reordered.counted (counted : Counted am) : Counted am' := by
  refine ⟨?_, ?_⟩
  · rw [reordered.nTried, reordered.vvTried]
    exact counted.tried
  · rw [reordered.nTried, reordered.nNew, reordered.length]
    exact counted.total

end Reordered

theorem exchanged_entry {mapInfo : ℕ → Option CAddrInfo} {id1 id2 : ℕ} {info1 info2 : CAddrInfo}
    (entry1 : mapInfo id1 = some info1) (entry2 : mapInfo id2 = some info2) (n : ℕ) :
    (update (update mapInfo id1 (some { info1 with nRandomPos := some q })) id2
      (some { info2 with nRandomPos := some p }) n).map unplaced = (mapInfo n).map unplaced := by
  by_cases atSecond : n = id2
  · subst atSecond
    simp [entry2, unplaced]
  · rw [update_of_ne atSecond]
    by_cases atFirst : n = id1
    · subst atFirst
      simp [entry1, unplaced]
    · rw [update_of_ne atFirst]

theorem swapRandom_spec (indexed : Indexed am) (pBound : p < am.vRandom.length)
    (qBound : q < am.vRandom.length) :
    ∃ am', swapRandom am p q = some am' ∧ Indexed am' ∧ Reordered am am' ∧
      am'.vRandom[q]? = am.vRandom[p]? := by
  by_cases same : p = q
  · subst same
    exact ⟨am, if_pos rfl, indexed, Reordered.refl am, rfl⟩
  obtain ⟨id1, first⟩ : ∃ id1, am.vRandom[p]? = some id1 := ⟨_, List.getElem?_eq_getElem pBound⟩
  obtain ⟨id2, second⟩ : ∃ id2, am.vRandom[q]? = some id2 := ⟨_, List.getElem?_eq_getElem qBound⟩
  obtain ⟨info1, entry1⟩ := indexed.mem_vRandom.mp (List.mem_of_getElem? first)
  obtain ⟨info2, entry2⟩ := indexed.mem_vRandom.mp (List.mem_of_getElem? second)
  set after : CAddrMan := { am with
    mapInfo := update (update am.mapInfo id1 (some { info1 with nRandomPos := some q }))
      id2 (some { info2 with nRandomPos := some p })
    vRandom := (am.vRandom.set p id2).set q id1 } with after_def
  have run : swapRandom am p q = some after := by
    simp [swapRandom, same, first, second, entry1, entry2, after_def]
  have reordered : Reordered am after :=
    ⟨exchanged_entry entry1 entry2, rfl, rfl, rfl, by simp [after_def], rfl, rfl, rfl, rfl⟩
  have positions : posOf after = update (update (posOf am) id1 (some q)) id2 (some p) := by
    change (Option.bind · CAddrInfo.nRandomPos) ∘ update _ _ _ = _
    rw [comp_update, comp_update]
    rfl
  refine ⟨after, run, ⟨fun n high => ?_, ?_, ?_, fun n info found => ?_⟩, reordered, ?_⟩
  · exact reordered.eq_none.mpr (indexed.below n high)
  · rw [reordered.addrOf]
    exact indexed.addresses
  · rw [positions]
    exact indexed.positions.exchange first second same
  · by_cases atSecond : n = id2
    · simp only [after_def, atSecond, update_self, some.injEq] at found
      exact ⟨p, by rw [← found]⟩
    · simp only [after_def, update_of_ne atSecond] at found
      by_cases atFirst : n = id1
      · simp only [atFirst, update_self, some.injEq] at found
        exact ⟨q, by rw [← found]⟩
      · rw [update_of_ne atFirst] at found
        exact indexed.placed n info found
  · simp [after_def, qBound, first]

theorem Consistent.reordered (consistent : Consistent am) (indexed : Indexed am')
    (reordered : Reordered am am') : Consistent am' :=
  Consistent.of_counted indexed (reordered.shelved consistent.shelved)
    (reordered.counted consistent.counted)

/-! ## Giving up an entry of a new bucket -/

theorem Shelved.remove (shelved : Shelved (insert n hole) am) (noPlace : places am.vvTried n = 0)
    (noRef : refs am.vvNew n = 0) :
    Shelved hole { am with mapInfo := update am.mapInfo n none } := by
  refine ⟨fun m info found kept => ?_, fun m missing => ?_, shelved.newRoom, shelved.triedRoom⟩
  · by_cases here : m = n
    · simp [here] at found
    · simp only [update_of_ne here] at found
      have kept' : m ∉ insert n hole := by simp [here, kept]
      exact shelved.filed m info found kept'
  · by_cases here : m = n
    · subst here
      exact ⟨noPlace, noRef⟩
    · simp only [update_of_ne here] at missing
      exact shelved.absent m missing

theorem Indexed.remove (indexed : Indexed am) (entry : am.mapInfo n = some info)
    (last : am.vRandom[am.vRandom.length - 1]? = some n) (nIdCount : am'.nIdCount = am.nIdCount)
    (mapInfo : am'.mapInfo = update am.mapInfo n none)
    (mapAddr : am'.mapAddr = update am.mapAddr info.toCNetAddr none)
    (vRandom : am'.vRandom = am.vRandom.dropLast) : Indexed am' := by
  have addrs : addrOf am' = update (addrOf am) n none := by
    change Option.map _ ∘ am'.mapInfo = _
    rw [mapInfo, comp_update]
    rfl
  have places : posOf am' = update (posOf am) n none := by
    change (Option.bind · _) ∘ am'.mapInfo = _
    rw [mapInfo, comp_update]
    rfl
  have address : am.mapAddr info.toCNetAddr = some n :=
    (indexed.addresses _ n).mpr (by simp [addrOf, entry])
  refine ⟨fun m high => ?_, ?_, ?_, fun m other found => ?_⟩
  · rw [nIdCount] at high
    by_cases here : m = n
    · simp [mapInfo, here]
    · simp [mapInfo, here, indexed.below m high]
  · rw [mapAddr, addrs]
    exact indexed.addresses.erase address
  · rw [vRandom, places]
    exact indexed.positions.dropLast last
  · by_cases here : m = n
    · simp [mapInfo, here] at found
    · rw [mapInfo, update_of_ne here] at found
      exact indexed.placed m other found

theorem eraseInfo_spec (indexed : Indexed am) (entry : am.mapInfo n = some info) :
    ∃ swapped, Reordered am swapped ∧ 0 < am.vRandom.length ∧
      let erased : CAddrMan := { swapped with
        vRandom := swapped.vRandom.dropLast
        mapAddr := update swapped.mapAddr info.toCNetAddr none
        mapInfo := update swapped.mapInfo n none
        nNew := swapped.nNew - 1 }
      eraseInfo am n info = some erased ∧ Indexed erased := by
  obtain ⟨i, place⟩ := indexed.placed n info entry
  have here : am.vRandom[i]? = some n :=
    (indexed.positions i n).mpr (by simp [posOf, entry, place])
  have bound := (List.getElem?_eq_some_iff.mp here).1
  obtain ⟨swapped, run, swappedIndexed, reordered, atEnd⟩ :=
    swapRandom_spec indexed bound (Nat.sub_one_lt_of_lt bound)
  have last : swapped.vRandom[swapped.vRandom.length - 1]? = some n := by
    rw [reordered.length, atEnd, here]
  obtain ⟨moved, movedEntry, same⟩ : ∃ moved, swapped.mapInfo n = some moved ∧
      unplaced moved = unplaced info := by
    have entries := reordered.entries n
    rw [entry, map_some, map_eq_some_iff] at entries
    exact entries
  have address : (unplaced moved).toCNetAddr = (unplaced info).toCNetAddr := by rw [same]
  refine ⟨swapped, reordered, by omega, by simp [eraseInfo, place, run], ?_⟩
  exact swappedIndexed.remove movedEntry last rfl rfl
    (congrArg (fun addr => update swapped.mapAddr addr none) address.symm) rfl

/-- What a bucket gives up is a reference; the entries of `hole` keep theirs. -/
structure Dropped (hole : Set ℕ) (b : Fin newBucketCount) (n : ℕ) (am am' : CAddrMan) : Prop where
  indexed : Indexed am'
  shelved : Shelved hole am'
  vvNew : am'.vvNew = Function.update am.vvNew b ((am.vvNew b).erase n)
  vvTried : am'.vvTried = am.vvTried
  nTried : am'.nTried = am.nTried
  total : am'.nNew - am'.vRandom.length = am.nNew - am.vRandom.length
  spared : ∀ m ∈ hole, (am'.mapInfo m).map unplaced = (am.mapInfo m).map unplaced

theorem dropFromNew_spec (indexed : Indexed am) (shelved : Shelved hole am)
    (present : ∀ m ∈ hole, am.mapInfo m ≠ none) (member : n ∈ am.vvNew b) (kept : n ∉ hole) :
    ∃ am', dropFromNew am b n = some am' ∧ Dropped hole b n am am' := by
  obtain ⟨info, entry, new⟩ := shelved.inNew member kept
  set fewer : CAddrInfo := { info with nRefCount := info.nRefCount - 1 } with fewer_def
  set edited := setInfo am n fewer with edited_def
  have editedEntry : edited.mapInfo n = some fewer := by simp [edited_def, setInfo]
  have editedIndexed : Indexed edited := indexed.edit entry rfl rfl
  have spared : ∀ m ∈ hole, edited.mapInfo m = am.mapInfo m := fun m out => by
    have other : m ≠ n := fun same => kept (same ▸ out)
    simp [edited_def, setInfo, other]
  have loosePresent : ∀ m ∈ insert n hole, edited.mapInfo m ≠ none := by
    rintro m (rfl | out)
    · simp [editedEntry]
    · rw [spared m out]
      exact present m out
  have loose : Shelved (insert n hole) edited :=
    (shelved.mono (Set.subset_insert n hole)).edit entry (Set.mem_insert n hole)
  have fewerRefs := refs_erase member
  have counted := new.counted
  have fewerCount : fewer.nRefCount = info.nRefCount - 1 := rfl
  have unfolded : dropFromNew am b n =
      (if fewer.nRefCount = 0 then eraseInfo edited n fewer else some edited).bind fun am =>
        some { am with vvNew := update am.vvNew b ((am.vvNew b).erase n) } := by
    rw [dropFromNew, entry]
    rfl
  by_cases final : fewer.nRefCount = 0
  · -- The last reference: the entry goes.
    obtain ⟨swapped, reordered, nonempty, run, erased⟩ := eraseInfo_spec editedIndexed editedEntry
    have swappedPresent : ∀ m ∈ insert n hole, swapped.mapInfo m ≠ none := fun m out missing =>
      loosePresent m out (reordered.eq_none.mp missing)
    have sameNew : swapped.vvNew = am.vvNew := reordered.vvNew
    have sameTried : swapped.vvTried = am.vvTried := reordered.vvTried
    have off := (reordered.shelved loose).eraseRef swappedPresent b (Set.mem_insert n hole)
    have noRef : refs (update swapped.vvNew b ((swapped.vvNew b).erase n)) n = 0 := by
      rw [sameNew]
      omega
    have noPlace : places swapped.vvTried n = 0 := by
      rw [sameTried]
      exact new.notTried
    have gone := off.remove noPlace noRef
    refine ⟨_, by rw [unfolded, if_pos final, run]; rfl, ?_⟩
    refine ⟨erased.tables, ⟨gone.filed, gone.absent, gone.newRoom, gone.triedRoom⟩, ?_, sameTried,
      reordered.nTried, ?_, fun m out => ?_⟩
    · simp only [sameNew]
    · have lengths := reordered.length
      have news := reordered.nNew
      simp only [List.length_dropLast]
      change 0 < am.vRandom.length at nonempty
      change swapped.vRandom.length = am.vRandom.length at lengths
      change swapped.nNew = am.nNew at news
      omega
    · have other : m ≠ n := fun same => kept (same ▸ out)
      simp only [update_of_ne other]
      rw [reordered.entries m, spared m out]
  · -- One reference fewer.
    have off := loose.eraseRef loosePresent b (Set.mem_insert n hole)
    refine ⟨_, by rw [unfolded, if_neg final]; rfl, ?_⟩
    refine ⟨editedIndexed.tables, off.close ?_, rfl, rfl, rfl, rfl, fun m out => ?_⟩
    · intro m out stays found entry'
      have here : m = n := out.resolve_right stays
      subst here
      cases editedEntry.symm.trans entry'
      refine Or.inr ⟨new.flag, ?_, ?_, ?_, new.notTried⟩
      · have positive := new.referenced
        omega
      · have upper := new.bounded
        omega
      · change fewer.nRefCount = (refs (update am.vvNew b ((am.vvNew b).erase m)) m : ℤ)
        omega
    · exact congrArg (Option.map unplaced) (spared m out)

end SynergyNet.AddrManInvariant
