import SynergyFormal.Net.AddrManCalls
import SynergyFormal.Primitives.Codec

/-!
# The address manager on disk

`peers.dat` holds the entries of the new table, the entries of the tried table and, for
each new bucket, the numbers of its entries in the order in which they were written.
Everything else is rebuilt: ids are given out anew, the tried buckets are filled from the
bucket hash, and the reference counts from the new buckets.

The type is `SER_DISK` throughout: `CAddrDB` is the only user of the format.
-/

set_option autoImplicit false

namespace SynergyNet.AddrManDisk

open SynergyLib SynergyData
open Option Function Wire Stream Buckets Transaction Codec AddrMan AddrManInvariant AddrManCalls
open List hiding insert le_trans length set

/-! ## Serialize -/

/-- `htons` and `ntohs` on a little-endian machine. -/
def swapBytes (n : ℕ) : ℕ := n % 256 * 256 + n / 256

def serializeService (addr : CService) : Bytes :=
  addr.ip ++ leBytes 2 (swapBytes addr.port.toNat)

def writeInt (n : ℤ) : Bytes := leBytes 4 (Int32.ofInt n).toBitVec.toNat

/-- The `nVersion` that is written first is the version byte of the address manager. -/
def serializeAddress (addr : CAddress) : Bytes :=
  writeInt 0 ++ writeUint32 addr.nTime ++ leBytes 8 addr.nServices.toNat ++
    serializeService addr.toCService

def serializeAddrInfo (info : CAddrInfo) : Bytes :=
  serializeAddress info.toCAddress ++ info.source.ip ++
    leBytes 8 info.nLastSuccess.toBitVec.toNat ++ leBytes 4 info.nAttempts.toBitVec.toNat

/-- `mapInfo` in the order of its keys. -/
def entries (am : CAddrMan) : List (ℕ × CAddrInfo) :=
  (List.range am.nIdCount).filterMap fun n => (am.mapInfo n).map fun info => (n, info)

/-- The loop over the new entries, with `mapUnkIds`. -/
def writeNewInfos (nNew : ℤ) : List (ℕ × CAddrInfo) → ℕ → (ℕ → ℕ) → Bytes × (ℕ → ℕ)
  | [], _, mapUnkIds => ([], mapUnkIds)
  | (n, info) :: rest, nIds, mapUnkIds =>
    if (nIds : ℤ) = nNew then ([], mapUnkIds)
    else
      let mapUnkIds := Function.update mapUnkIds n nIds
      if info.nRefCount ≠ 0 then
        let (bytes, mapUnkIds) := writeNewInfos nNew rest (nIds + 1) mapUnkIds
        (serializeAddrInfo info ++ bytes, mapUnkIds)
      else writeNewInfos nNew rest nIds mapUnkIds

def writeTriedInfos (nTried : ℤ) : List (ℕ × CAddrInfo) → ℕ → Bytes
  | [], _ => []
  | (_, info) :: rest, nIds =>
    if (nIds : ℤ) = nTried then []
    else if info.fInTried then serializeAddrInfo info ++ writeTriedInfos nTried rest (nIds + 1)
    else writeTriedInfos nTried rest nIds

def writeBucket (mapUnkIds : ℕ → ℕ) (vNew : Finset ℕ) : Bytes :=
  writeInt vNew.card ++ (vNew.sort (· ≤ ·)).flatMap fun n => writeInt (mapUnkIds n)

def serializeAddrMan (am : CAddrMan) : Bytes :=
  let (newInfos, mapUnkIds) := writeNewInfos am.nNew (entries am) 0 fun _ => 0
  leBytes 1 0 ++ byteString am.nKey ++ writeInt am.nNew ++ writeInt am.nTried ++
    writeInt newBucketCount ++ newInfos ++ writeTriedInfos am.nTried (entries am) 0 ++
    (List.finRange newBucketCount).flatMap fun b => writeBucket mapUnkIds (am.vvNew b)

/-! ## Unserialize -/

section Unserialize
variable {S : Type} (source : Source S) (params : Params)

def readNetAddr : StateT S Option CNetAddr := do
  let ip ← source.read 16
  if sized : ip.length = 16 then return ⟨ip, sized⟩ else failure

def readService : StateT S Option CService := do
  let addr ← readNetAddr source
  let portN ← readLe source 2
  return ⟨addr, UInt16.ofNat (swapBytes portN)⟩

def readAddress : StateT S Option CAddress := do
  let _ ← readInt32 source
  let nTime ← readUint32 source
  let nServices ← readLe source 8
  let addr ← readService source
  return ⟨addr, UInt64.ofNat nServices, nTime, 0⟩

def unserializeAddrInfo : StateT S Option CAddrInfo := do
  let addr ← readAddress source
  let src ← readNetAddr source
  let nLastSuccess ← readInt64 source
  let nAttempts ← readInt32 source
  return { newAddrInfo addr src with nLastSuccess, nAttempts }

/-- Entry `n` of the new table. -/
def loadNew (nUBuckets : ℤ) (n : ℕ) (am : CAddrMan) (info : CAddrInfo) : CAddrMan :=
  let placed := { info with nRandomPos := some am.vRandom.length }
  let am := { setInfo am n placed with
    mapAddr := Function.update am.mapAddr info.toCNetAddr (some n)
    vRandom := am.vRandom ++ [n] }
  if nUBuckets ≠ newBucketCount then
    let b := getNewBucket params am.nKey info info.source
    { setInfo am n { placed with nRefCount := placed.nRefCount + 1 } with
      vvNew := Function.update am.vvNew b (insert n (am.vvNew b)) }
  else am

def readNewInfos (nUBuckets : ℤ) : ℕ → ℕ → CAddrMan → StateT S Option CAddrMan
  | 0, _, am => return am
  | count + 1, n, am => do
      let info ← unserializeAddrInfo source
      readNewInfos nUBuckets count (n + 1) (loadNew params nUBuckets n am info)

/-- An entry of the tried table; `nLost` counts those without a place. -/
def loadTried (state : CAddrMan × ℕ) (info : CAddrInfo) : CAddrMan × ℕ :=
  let (am, nLost) := state
  let k := getTriedBucket params am.nKey info
  if (am.vvTried k).length < triedBucketSize then
    let placed := { info with nRandomPos := some am.vRandom.length, fInTried := true }
    ({ setInfo am am.nIdCount placed with
        vRandom := am.vRandom ++ [am.nIdCount]
        mapAddr := Function.update am.mapAddr info.toCNetAddr (some am.nIdCount)
        vvTried := Function.update am.vvTried k (am.vvTried k ++ [am.nIdCount])
        nIdCount := am.nIdCount + 1 }, nLost)
  else (am, nLost + 1)

def readTriedInfos : ℕ → CAddrMan × ℕ → StateT S Option (CAddrMan × ℕ)
  | 0, state => return state
  | count + 1, state => do
      let info ← unserializeAddrInfo source
      readTriedInfos count (loadTried params state info)

/-- `CAddrInfo()`, which `mapInfo[nIndex]` creates for a number that is not there. -/
def blankInfo : CAddrInfo where
  ip := List.replicate 16 0
  sized := rfl
  port := 0
  nServices := 1
  nTime := 100000000
  nLastTry := 0
  source := ⟨List.replicate 16 0, rfl⟩
  nLastSuccess := 0
  nAttempts := 0
  nRefCount := 0
  fInTried := false
  nRandomPos := none

def loadIndex (nUBuckets : ℤ) (b : Fin newBucketCount) (am : CAddrMan) (nIndex : ℕ) : CAddrMan :=
  let info := (am.mapInfo nIndex).getD blankInfo
  if nUBuckets = newBucketCount ∧ info.nRefCount < newBucketsPerAddress then
    { setInfo am nIndex { info with nRefCount := info.nRefCount + 1 } with
      vvNew := Function.update am.vvNew b (insert nIndex (am.vvNew b)) }
  else setInfo am nIndex info

/-- A negative number, which is never written, ends the read. -/
def readIndex : StateT S Option ℕ := do
  let nIndex ← readInt32 source
  if nIndex < 0 then failure else return nIndex.toInt.toNat

def readBucket : StateT S Option (List ℕ) := do
  let nSize ← readInt32 source
  readMany (readIndex source) nSize.toInt.toNat

def readBuckets (nUBuckets : ℤ) : List (Fin newBucketCount) → CAddrMan → StateT S Option CAddrMan
  | [], am => return am
  | b :: rest, am => do
      let indexes ← readBucket source
      readBuckets nUBuckets rest (indexes.foldl (loadIndex nUBuckets b) am)

/-- Everything but the header fields cleared. -/
def cleared (nKey : Bytes) (nNew nTried : ℤ) : CAddrMan := { freshAddrMan nKey with nNew, nTried }

def lessLost (state : CAddrMan × ℕ) : CAddrMan :=
  { state.1 with nTried := state.1.nTried - state.2 }

/-- More than 256 buckets would be stored outside `vvNew`. -/
def unserializeAddrMan : StateT S Option CAddrMan := do
  let _ ← readLe source 1
  let nKey ← unserializeBytes source
  let nNew ← readInt32 source
  let nTried ← readInt32 source
  let nUBuckets ← readInt32 source
  let am ← readNewInfos source params nUBuckets.toInt nNew.toInt.toNat 0
    (cleared nKey nNew.toInt nTried.toInt)
  let state ← readTriedInfos source params nTried.toInt.toNat
    ({ am with nIdCount := nNew.toInt.toNat }, 0)
  if newBucketCount < nUBuckets.toInt.toNat then failure
  else
    readBuckets source nUBuckets.toInt
      ((List.finRange newBucketCount).take nUBuckets.toInt.toNat) (lessLost state)

end Unserialize

/-! ## What is written -/

def newEntries (am : CAddrMan) : List (ℕ × CAddrInfo) :=
  (entries am).filter fun e => decide (e.2.nRefCount ≠ 0)

def triedEntries (am : CAddrMan) : List (ℕ × CAddrInfo) :=
  (entries am).filter fun e => e.2.fInTried

variable {info : CAddrInfo} {n : ℕ} {am : CAddrMan}

theorem mem_entries : (n, info) ∈ entries am ↔ n < am.nIdCount ∧ am.mapInfo n = some info := by
  simp only [entries, mem_filterMap, List.mem_range, map_eq_some_iff, Prod.mk.injEq]
  constructor
  · rintro ⟨m, below, other, entry, rfl, rfl⟩
    exact ⟨below, entry⟩
  · rintro ⟨below, entry⟩
    exact ⟨n, below, info, entry, rfl, rfl⟩

theorem mem_entries_iff (indexed : Indexed am) :
    (n, info) ∈ entries am ↔ am.mapInfo n = some info :=
  mem_entries.trans (and_iff_right_of_imp indexed.lt_nIdCount)

theorem entries_nodup : ((entries am).map Prod.fst).Nodup := by
  have ids : (entries am).map Prod.fst =
      (List.range am.nIdCount).filter fun n => (am.mapInfo n).isSome := by
    rw [entries, map_filterMap, ← filterMap_eq_filter]
    apply filterMap_congr
    intro n _
    cases entry : am.mapInfo n <;> simp [Option.guard, entry]
  rw [ids]
  exact nodup_range.filter _

theorem nRefCount_ne_zero_iff (consistent : Consistent am) (entry : am.mapInfo n = some info) :
    info.nRefCount ≠ 0 ↔ info.fInTried = false := by
  rcases consistent.shelved.filed n info entry (Set.notMem_empty n) with tried | new
  · simp [tried.flag, tried.unreferenced]
  · have positive := new.referenced
    simp only [new.flag, iff_true]
    omega

theorem length_filter_entries (am : CAddrMan) (part : CAddrInfo → Bool) :
    ((entries am).filter fun e => part e.2).length =
      ((Finset.range am.nIdCount).filter fun n => (am.mapInfo n).map part = some true).card := by
  have nodup : (((entries am).filter fun e => part e.2).map Prod.fst).Nodup :=
    entries_nodup.sublist ((filter_sublist).map Prod.fst)
  have ids : (((entries am).filter fun e => part e.2).map Prod.fst).toFinset =
      (Finset.range am.nIdCount).filter fun n => (am.mapInfo n).map part = some true := by
    ext n
    simp only [List.mem_toFinset, List.mem_map, mem_filter, Finset.mem_filter,
      Finset.mem_range, map_eq_some_iff, Prod.exists, mem_entries]
    constructor
    · rintro ⟨m, info, ⟨⟨below, entry⟩, isPart⟩, rfl⟩
      exact ⟨below, info, entry, isPart⟩
    · rintro ⟨below, info, entry, isPart⟩
      exact ⟨n, info, ⟨⟨below, entry⟩, isPart⟩, rfl⟩
  rw [← ids, toFinset_card_of_nodup nodup, length_map]

theorem length_newEntries (consistent : Consistent am) :
    ((newEntries am).length : ℤ) = am.nNew := by
  rw [newEntries, length_filter_entries am fun info => decide (info.nRefCount ≠ 0),
    consistent.nNew, newIds]
  congr 2
  apply Finset.filter_congr
  intro n _
  cases entry : am.mapInfo n with
  | none => simp
  | some info => simpa using nRefCount_ne_zero_iff consistent entry

theorem length_triedEntries (consistent : Consistent am) :
    ((triedEntries am).length : ℤ) = am.nTried := by
  rw [triedEntries, length_filter_entries am CAddrInfo.fInTried, consistent.nTried]
  rfl

theorem writeNewInfos_spec {nNew : ℤ} :
    ∀ (list : List (ℕ × CAddrInfo)) (nIds : ℕ) (ids : ℕ → ℕ), (list.map Prod.fst).Nodup →
      (nIds + (list.filter fun e => decide (e.2.nRefCount ≠ 0)).length : ℤ) = nNew →
      (writeNewInfos nNew list nIds ids).1 =
          (list.filter fun e => decide (e.2.nRefCount ≠ 0)).flatMap
            (fun e => serializeAddrInfo e.2) ∧
        (∀ n ∉ list.map Prod.fst, (writeNewInfos nNew list nIds ids).2 n = ids n) ∧
        ∀ i e, (list.filter fun e => decide (e.2.nRefCount ≠ 0))[i]? = some e →
          (writeNewInfos nNew list nIds ids).2 e.1 = nIds + i := by
  intro list
  induction list with
  | nil => intro nIds ids _ _; simp [writeNewInfos]
  | cons head rest ih =>
    obtain ⟨n, info⟩ := head
    intro nIds ids nodup total
    rw [map_cons, nodup_cons] at nodup
    obtain ⟨fresh, restNodup⟩ := nodup
    rw [writeNewInfos]
    split
    case isTrue done =>
      have none : ((n, info) :: rest).filter (fun e => decide (e.2.nRefCount ≠ 0)) = [] := by
        apply eq_nil_of_length_eq_zero
        omega
      rw [none]
      simp
    case isFalse more =>
      by_cases isNew : info.nRefCount = 0
      · rw [filter_cons_of_neg (by simp [isNew])] at total ⊢
        simp only [isNew, ne_eq, not_true_eq_false, if_false]
        obtain ⟨bytes, kept, numbered⟩ :=
          ih nIds (update ids n nIds) restNodup total
        refine ⟨bytes, fun m outside => ?_, numbered⟩
        rw [map_cons, mem_cons, not_or] at outside
        rw [kept m outside.2, update_of_ne outside.1]
      · rw [filter_cons_of_pos (by simp [isNew])] at total ⊢
        simp only [isNew, ne_eq, not_false_eq_true, if_true]
        rw [length_cons] at total
        obtain ⟨bytes, kept, numbered⟩ := ih (nIds + 1)
          (update ids n nIds) restNodup (by push_cast at total ⊢; omega)
        refine ⟨by rw [bytes, flatMap_cons], fun m outside => ?_, fun i e found => ?_⟩
        · rw [map_cons, mem_cons, not_or] at outside
          rw [kept m outside.2, update_of_ne outside.1]
        · cases i with
          | zero =>
            cases found
            rw [kept n fresh, update_self]
            rfl
          | succ i =>
            rw [numbered i e found]
            omega

theorem writeTriedInfos_spec {nTried : ℤ} : ∀ (list : List (ℕ × CAddrInfo)) (nIds : ℕ),
      (nIds + (list.filter fun e => e.2.fInTried).length : ℤ) = nTried →
      writeTriedInfos nTried list nIds =
        (list.filter fun e => e.2.fInTried).flatMap fun e => serializeAddrInfo e.2 := by
  intro list
  induction list with
  | nil => intro nIds _; rfl
  | cons head rest ih =>
    obtain ⟨n, info⟩ := head
    intro nIds total
    rw [writeTriedInfos]
    split
    case isTrue done =>
      have none : ((n, info) :: rest).filter (fun e => e.2.fInTried) = [] := by
        apply eq_nil_of_length_eq_zero
        omega
      rw [none]
      rfl
    case isFalse more =>
      cases flag : info.fInTried with
      | true =>
        rw [filter_cons_of_pos (by simp [flag]), length_cons] at total
        rw [filter_cons_of_pos (by simp [flag]), flatMap_cons, if_pos rfl,
          ih (nIds + 1) (by push_cast at total ⊢; omega)]
      | false =>
        rw [filter_cons_of_neg (by simp [flag])] at total
        rw [filter_cons_of_neg (by simp [flag]), if_neg (by simp), ih nIds total]

/-! ## Reading an entry back -/

/-- What the file says about an entry. -/
def onDisk (info : CAddrInfo) : CAddrInfo :=
  { info with nLastTry := 0, nRefCount := 0, fInTried := false, nRandomPos := none }

theorem swapBytes_swapBytes (small : n < 65536) : swapBytes (swapBytes n) = n := by
  simp only [swapBytes]
  omega

theorem toInt_ofInt_of_small (small : n < 2 ^ 31) : (Int32.ofInt n).toInt = n :=
  Int32.toInt_ofInt_of_le (by omega) (by exact_mod_cast small)

/-- The loop over the new entries on values already read. -/
def loadNews (params : Params) (nUBuckets : ℤ) : ℕ → CAddrMan → List CAddrInfo → CAddrMan
  | _, am, [] => am
  | n, am, info :: rest =>
    loadNews params nUBuckets (n + 1) (loadNew params nUBuckets n am info) rest

/-- A bucket of numbers, as `readBucket` expects it. -/
def writeIndexes (indexes : List ℕ) : Bytes :=
  writeInt indexes.length ++ indexes.flatMap fun n : ℕ => writeInt n

section Readers
variable {S : Type} {source : Source S} {holds : S → Nat → Bytes → Prop}
  (delivers : Delivers source holds)
include delivers

theorem reads_readNetAddr {addr : CNetAddr} : Reads holds (readNetAddr source) addr.ip addr := by
  have bytes := delivers addr.ip
  rw [addr.sized] at bytes
  have checked : Reads holds
      (if sized : addr.ip.length = 16 then Pure.pure ⟨addr.ip, sized⟩ else failure :
        StateT S Option CNetAddr) [] addr := by
    rw [dif_pos addr.sized]
    exact Reads.pure addr
  have both : Reads holds (readNetAddr source) (addr.ip ++ []) addr := bytes.bind checked
  rwa [append_nil] at both

theorem reads_readService (addr : CService) :
    Reads holds (readService source) (serializeService addr) addr := by
  have small : addr.port.toNat < 65536 := addr.port.toNat_lt
  have port := reads_readLe delivers 2 (swapBytes addr.port.toNat) (by simp only [swapBytes]; omega)
  have value : addr = ⟨addr.toCNetAddr, UInt16.ofNat (swapBytes (swapBytes addr.port.toNat))⟩ := by
    rw [swapBytes_swapBytes small, UInt16.ofNat_toNat]
  have last := port.map fun portN => (⟨addr.toCNetAddr, UInt16.ofNat (swapBytes portN)⟩ : CService)
  rw [← value] at last
  exact (reads_readNetAddr delivers).bind last

theorem reads_writeInt (n : ℤ) : Reads holds (readInt32 source) (writeInt n) (Int32.ofInt n) :=
  reads_readInt32 delivers

theorem reads_readAddress (addr : CAddress) :
    Reads holds (readAddress source) (serializeAddress addr) { addr with nLastTry := 0 } := by
  have services := reads_readLe delivers 8 addr.nServices.toNat
    (by have := addr.nServices.toNat_lt; omega)
  have value : (⟨addr.toCService, UInt64.ofNat addr.nServices.toNat, addr.nTime, 0⟩ : CAddress) =
      { addr with nLastTry := 0 } := by
    rw [UInt64.ofNat_toNat]
  have last := (reads_readService delivers addr.toCService).map fun service =>
    (⟨service, UInt64.ofNat addr.nServices.toNat, addr.nTime, 0⟩ : CAddress)
  rw [value] at last
  simp only [serializeAddress, append_assoc]
  exact (reads_writeInt delivers 0).bind ((reads_readUint32 delivers).bind (services.bind last))

theorem reads_unserializeAddrInfo :
    Reads holds (unserializeAddrInfo source) (serializeAddrInfo info) (onDisk info) := by
  have last : Reads holds (do
      return { newAddrInfo { info.toCAddress with nLastTry := 0 } info.source with
        nLastSuccess := info.nLastSuccess, nAttempts := ← readInt32 source })
      (leBytes 4 info.nAttempts.toBitVec.toNat) (onDisk info) :=
    (reads_readInt32 delivers).map fun nAttempts =>
      { newAddrInfo { info.toCAddress with nLastTry := 0 } info.source with
        nLastSuccess := info.nLastSuccess, nAttempts }
  simp only [serializeAddrInfo, append_assoc]
  exact (reads_readAddress delivers info.toCAddress).bind ((reads_readNetAddr delivers).bind
      ((reads_readInt64 delivers).bind last))

/-! ## Reading the loops back -/

theorem reads_readNewInfos (params : Params) (nUBuckets : ℤ) (list : List CAddrInfo) :
    ∀ (n : ℕ) (am : CAddrMan), Reads holds (readNewInfos source params nUBuckets list.length n am)
        (list.flatMap serializeAddrInfo)
        (loadNews params nUBuckets n am (list.map onDisk)) := by
  induction list with
  | nil => exact fun n am => Reads.pure am
  | cons info rest ih =>
    intro n am
    exact (reads_unserializeAddrInfo delivers).bind (ih (n + 1) _)

theorem reads_readTriedInfos (params : Params) (list : List CAddrInfo) : ∀ state : CAddrMan × ℕ,
      Reads holds (readTriedInfos source params list.length state)
        (list.flatMap serializeAddrInfo) ((list.map onDisk).foldl (loadTried params) state) := by
  induction list with
  | nil => exact fun state => Reads.pure state
  | cons info rest ih =>
    intro state
    exact (reads_unserializeAddrInfo delivers).bind (ih _)

theorem reads_readIndex (small : n < 2 ^ 31) : Reads holds (readIndex source) (writeInt n) n := by
  have value : (Int32.ofInt n).toInt = n := toInt_ofInt_of_small small
  have notNegative : ¬ Int32.ofInt n < 0 := by
    rw [Int32.lt_iff_toInt_lt, value]
    simp
  have checked : Reads holds
      (if Int32.ofInt n < 0 then failure else Pure.pure (Int32.ofInt n).toInt.toNat :
        StateT S Option ℕ) [] n := by
    rw [if_neg notNegative, value, Int.toNat_natCast]
    exact Reads.pure n
  have both : Reads holds (readIndex source) (writeInt n ++ []) n :=
    (reads_writeInt delivers n).bind checked
  rwa [append_nil] at both

theorem reads_readBucket {indexes : List ℕ} (short : indexes.length < 2 ^ 31)
    (small : ∀ n ∈ indexes, n < 2 ^ 31) :
    Reads holds (readBucket source) (writeIndexes indexes) indexes := by
  have elements := Reads.many indexes fun n member => reads_readIndex delivers (small n member)
  refine (reads_writeInt delivers indexes.length).bind ?_
  rw [toInt_ofInt_of_small short, Int.toNat_natCast]
  exact elements

theorem reads_readBuckets (nUBuckets : ℤ) {indexes : Fin newBucketCount → List ℕ}
    (short : ∀ b, (indexes b).length < 2 ^ 31) (small : ∀ b, ∀ n ∈ indexes b, n < 2 ^ 31)
    (buckets : List (Fin newBucketCount)) :
    ∀ am : CAddrMan, Reads holds (readBuckets source nUBuckets buckets am)
      (buckets.flatMap fun b => writeIndexes (indexes b))
      (buckets.foldl (fun am b => (indexes b).foldl (loadIndex nUBuckets b) am) am) := by
  induction buckets with
  | nil => exact fun am => Reads.pure am
  | cons b rest ih =>
    intro am
    exact (reads_readBucket delivers (short b) (small b)).bind (ih _)

end Readers

/-! ## Ids given out anew -/

/-- The entries are `cards`, numbered in their order. -/
structure Loaded (cards : List CAddrInfo) (am : CAddrMan) : Prop where
  infos : ∀ m, am.mapInfo m = cards[m]?.map fun info => { info with nRandomPos := some m }
  addrs : ∀ addr m, am.mapAddr addr = some m ↔
    ∃ info, cards[m]? = some info ∧ info.toCNetAddr = addr
  random : am.vRandom = List.range cards.length

variable {am' start : CAddrMan} {cards list : List CAddrInfo} {params : Params} {key : Bytes}

theorem Loaded.snoc (loaded : Loaded cards am)
    (fresh : ∀ other ∈ cards, other.toCNetAddr ≠ info.toCNetAddr)
    (mapInfo : am'.mapInfo = update am.mapInfo cards.length
      (some { info with nRandomPos := some am.vRandom.length }))
    (mapAddr : am'.mapAddr = update am.mapAddr info.toCNetAddr (some cards.length))
    (vRandom : am'.vRandom = am.vRandom ++ [cards.length]) : Loaded (cards ++ [info]) am' := by
  have unfiled : am.mapAddr info.toCNetAddr = none := by
    refine eq_none_iff_forall_ne_some.mpr fun m found => ?_
    obtain ⟨other, card, same⟩ := (loaded.addrs _ m).mp found
    exact fresh other (mem_of_getElem? card) same
  have filed : Directory.Inverse am.mapAddr fun m => cards[m]?.map fun card => card.toCNetAddr :=
    fun addr m => (loaded.addrs addr m).trans map_eq_some_iff.symm
  have added := filed.insert unfiled (b := cards.length) (by simp)
  have table (m : ℕ) : (cards ++ [info])[m]? = update (cards[·]?) cards.length (some info) m :=
    congrFun Directory.getElem?_concat m
  refine ⟨fun m => ?_, fun addr m => ?_, ?_⟩
  · rw [mapInfo, loaded.random, length_range, table]
    by_cases here : m = cards.length
    · simp [here]
    · rw [update_of_ne here, update_of_ne here, loaded.infos m]
  · rw [mapAddr, table, added addr m, ← map_eq_some_iff]
    exact Eq.congr_left (apply_update (fun _ => Option.map _) (cards[·]?) _ (some info) m).symm
  · rw [vRandom, loaded.random, length_append, length_singleton, range_succ]

theorem Loaded.indexed (loaded : Loaded cards am) (count : am.nIdCount = cards.length) :
    Indexed am := by
  refine ⟨fun m high => ?_, fun addr m => ?_, fun i m => ?_, fun m info entry => ?_⟩
  · rw [loaded.infos m, List.getElem?_eq_none (count ▸ high)]
    rfl
  · rw [loaded.addrs addr m, addrOf, loaded.infos m, Option.map_map, map_eq_some_iff]
    rfl
  · rw [loaded.random, posOf, loaded.infos m]
    by_cases inside : m < cards.length
    · simp only [List.getElem?_eq_getElem inside, List.getElem?_eq_some_iff, length_range,
        getElem_range, map_some, bind_some, some.injEq]
      constructor
      · rintro ⟨_, same⟩
        exact same.symm
      · rintro rfl
        exact ⟨inside, rfl⟩
    · simp only [List.getElem?_eq_none (Nat.le_of_not_lt inside), List.getElem?_eq_some_iff,
        length_range, getElem_range, map_none, bind_none, reduceCtorEq,
        iff_false]
      rintro ⟨bound, rfl⟩
      exact inside bound
  · rw [loaded.infos m, map_eq_some_iff] at entry
    obtain ⟨card, _, same⟩ := entry
    exact ⟨m, by rw [← same]⟩

/-- All fields but the entries and their index. -/
structure SameTables (am am' : CAddrMan) : Prop where
  nKey : am'.nKey = am.nKey
  nIdCount : am'.nIdCount = am.nIdCount
  nTried : am'.nTried = am.nTried
  vvTried : am'.vvTried = am.vvTried
  nNew : am'.nNew = am.nNew
  vvNew : am'.vvNew = am.vvNew

theorem fresh_of_nodup {rest : List CAddrInfo}
    (distinct : ((cards ++ info :: rest).map fun info => info.toCNetAddr).Nodup) :
    ∀ other ∈ cards, other.toCNetAddr ≠ info.toCNetAddr := by
  intro other member same
  rw [map_append, nodup_append] at distinct
  exact distinct.2.2 _ (List.mem_map_of_mem member) _ (by simp) same

theorem loadNews_spec : ∀ (cards : List CAddrInfo) (am : CAddrMan), Loaded cards am →
      ((cards ++ list).map fun info => info.toCNetAddr).Nodup →
      Loaded (cards ++ list) (loadNews params newBucketCount cards.length am list) ∧
        SameTables am (loadNews params newBucketCount cards.length am list) := by
  induction list with
  | nil =>
    intro cards am loaded _
    rw [append_nil]
    exact ⟨loaded, rfl, rfl, rfl, rfl, rfl, rfl⟩
  | cons info rest ih =>
    intro cards am loaded distinct
    have unfolded : loadNew params newBucketCount cards.length am info =
        { setInfo am cards.length { info with nRandomPos := some am.vRandom.length } with
          mapAddr := update am.mapAddr info.toCNetAddr (some cards.length)
          vRandom := am.vRandom ++ [cards.length] } := by
      simp [loadNew]
    have next : Loaded (cards ++ [info]) (loadNew params newBucketCount cards.length am info) := by
      rw [unfolded]
      exact loaded.snoc (fresh_of_nodup distinct) rfl rfl rfl
    obtain ⟨final, same⟩ := ih (cards ++ [info]) _ next (by
      rw [append_assoc]
      exact distinct)
    rw [append_assoc, length_append, length_singleton] at final
    rw [length_append, length_singleton] at same
    refine ⟨final, ?_⟩
    have first : SameTables am (loadNew params newBucketCount cards.length am info) := by
      rw [unfolded]
      exact ⟨rfl, rfl, rfl, rfl, rfl, rfl⟩
    exact ⟨same.nKey.trans first.nKey, same.nIdCount.trans first.nIdCount,
      same.nTried.trans first.nTried, same.vvTried.trans first.vvTried,
      same.nNew.trans first.nNew, same.vvNew.trans first.vvNew⟩

/-! ## The tried buckets -/

def asTried (info : CAddrInfo) : CAddrInfo := { info with fInTried := true }

/-- After the entries `done` of the tried table, behind the entries `news` of the new one. -/
structure TriedLoaded (params : Params) (key : Bytes) (news done : List CAddrInfo)
    (am : CAddrMan) : Prop where
  loaded : Loaded (news ++ done.map asTried) am
  nKey : am.nKey = key
  nIdCount : am.nIdCount = news.length + done.length
  lengths : ∀ k, (am.vvTried k).length =
    (done.filter fun info => getTriedBucket params key info = k).length
  once : ∀ m, places am.vvTried m =
    if news.length ≤ m ∧ m < news.length + done.length then 1 else 0
  home : ∀ k, ∀ m ∈ am.vvTried k, ∃ info, am.mapInfo m = some info ∧
    getTriedBucket params key info = k

theorem TriedLoaded.snoc {news done : List CAddrInfo} (state : TriedLoaded params key news done am)
    (fresh : ∀ other ∈ news ++ done, other.toCNetAddr ≠ info.toCNetAddr)
    (room : ((done ++ [info]).filter fun other =>
      getTriedBucket params key other = getTriedBucket params key info).length ≤ triedBucketSize)
    (nLost : ℕ) :
    ∃ am', loadTried params (am, nLost) info = (am', nLost) ∧
      TriedLoaded params key news (done ++ [info]) am' ∧ am'.nTried = am.nTried ∧
      am'.nNew = am.nNew ∧ am'.vvNew = am.vvNew := by
  set k := getTriedBucket params key info with k_def
  have bucket : getTriedBucket params am.nKey info = k := by rw [state.nKey]
  have space : (am.vvTried k).length < triedBucketSize := by
    rw [state.lengths k]
    rw [filter_append, length_append, filter_cons_of_pos (by simp [k_def])] at room
    exact room
  have count : (news ++ done.map asTried).length = am.nIdCount := by
    rw [length_append, length_map, state.nIdCount]
  set placed : CAddrInfo := { info with nRandomPos := some am.vRandom.length, fInTried := true }
  have run : loadTried params (am, nLost) info = ({ setInfo am am.nIdCount placed with
        vRandom := am.vRandom ++ [am.nIdCount]
        mapAddr := update am.mapAddr info.toCNetAddr (some am.nIdCount)
        vvTried := update am.vvTried k (am.vvTried k ++ [am.nIdCount])
        nIdCount := am.nIdCount + 1 }, nLost) := by
    simp only [loadTried, bucket, if_pos space, placed]
  refine ⟨_, run, ⟨?_, state.nKey, ?_, fun c => ?_, fun m => ?_, fun c m member => ?_⟩, rfl, rfl,
    rfl⟩
  · rw [map_append, ← append_assoc]
    apply state.loaded.snoc
    · intro other member
      rcases mem_append.mp member with inNews | inDone
      · exact fresh other (mem_append_left _ inNews)
      · obtain ⟨raw, inRaw, rfl⟩ := List.mem_map.mp inDone
        exact fresh raw (mem_append_right _ inRaw)
    · rw [count]
      rfl
    · rw [count]
      rfl
    · rw [count]
  · change am.nIdCount + 1 = _
    rw [state.nIdCount, length_append, length_singleton, Nat.add_assoc]
  · change (update am.vvTried k (am.vvTried k ++ [am.nIdCount]) c).length = _
    by_cases here : c = k
    · subst here
      rw [update_self, length_append, state.lengths k, filter_append,
        length_append, filter_cons_of_pos (by simp [k_def])]
      rfl
    · have other : getTriedBucket params key info ≠ c := fun same => here (k_def ▸ same.symm)
      rw [update_of_ne here, state.lengths c, filter_append, length_append,
        filter_cons_of_neg (by simp [other])]
      rfl
  · change places (update am.vvTried k (am.vvTried k ++ [am.nIdCount])) m = _
    rw [places_append, state.once m, state.nIdCount, length_append, length_singleton]
    split_ifs <;> omega
  · change m ∈ update am.vvTried k (am.vvTried k ++ [am.nIdCount]) c at member
    change ∃ found, update am.mapInfo am.nIdCount (some placed) m = some found ∧ _
    have old : ∀ d, m ∈ am.vvTried d → ∃ found, update am.mapInfo am.nIdCount (some placed) m =
        some found ∧ getTriedBucket params key found = d := by
      intro d inside
      obtain ⟨found, entry, isHome⟩ := state.home d m inside
      have below : m ≠ am.nIdCount := by
        rintro rfl
        rw [state.loaded.infos, ← count, List.getElem?_eq_none le_rfl] at entry
        cases entry
      exact ⟨found, by rw [update_of_ne below, entry], isHome⟩
    by_cases here : c = k
    · subst here
      rw [update_self] at member
      rcases mem_append.mp member with inside | last
      · exact old k inside
      · rw [mem_singleton.mp last, update_self]
        exact ⟨_, rfl, rfl⟩
    · rw [update_of_ne here] at member
      exact old c member

theorem loadTried_spec {news : List CAddrInfo} :
    ∀ (done : List CAddrInfo) (am : CAddrMan) (nLost : ℕ),
      TriedLoaded params key news done am →
      ((news ++ done ++ list).map fun info => info.toCNetAddr).Nodup →
      (∀ k, ((done ++ list).filter fun info => getTriedBucket params key info = k).length ≤
        triedBucketSize) →
      ∃ am', list.foldl (loadTried params) (am, nLost) = (am', nLost) ∧
        TriedLoaded params key news (done ++ list) am' ∧ am'.nTried = am.nTried ∧
        am'.nNew = am.nNew ∧ am'.vvNew = am.vvNew := by
  induction list with
  | nil =>
    intro done am nLost state _ _
    rw [append_nil]
    exact ⟨am, rfl, state, rfl, rfl, rfl⟩
  | cons info rest ih =>
    intro done am nLost state distinct room
    have space : ((done ++ [info]).filter fun other =>
        getTriedBucket params key other = getTriedBucket params key info).length ≤
          triedBucketSize := by
      refine le_trans (List.Sublist.length_le (List.Sublist.filter _ ?_)) (room _)
      simp
    obtain ⟨first, run, next, tried, new, newBuckets⟩ :=
      state.snoc (fresh_of_nodup distinct) space nLost
    obtain ⟨last, rest', final, tried', new', newBuckets'⟩ :=
      ih (done ++ [info]) first nLost next (by simpa using distinct) (by simpa using room)
    refine ⟨last, ?_, by simpa using final, tried'.trans tried, new'.trans new,
      newBuckets'.trans newBuckets⟩
    rw [foldl_cons, run, rest']

/-! ## The new buckets -/

/-- The references of the buckets filled so far are counted, and nothing else has changed. -/
structure RefsLoaded (cards : List CAddrInfo) (start am : CAddrMan) : Prop where
  infos : ∀ m, am.mapInfo m =
    cards[m]?.map fun info => { info with nRandomPos := some m, nRefCount := refs am.vvNew m }
  nKey : am.nKey = start.nKey
  nIdCount : am.nIdCount = start.nIdCount
  mapAddr : am.mapAddr = start.mapAddr
  vRandom : am.vRandom = start.vRandom
  nTried : am.nTried = start.nTried
  vvTried : am.vvTried = start.vvTried
  nNew : am.nNew = start.nNew

theorem RefsLoaded.insert (state : RefsLoaded cards start am) {b : Fin newBucketCount} {m : ℕ}
    (inside : m < cards.length) (absent : m ∉ am.vvNew b)
    (few : (refs am.vvNew m : ℤ) < newBucketsPerAddress) :
    RefsLoaded cards start (loadIndex newBucketCount b am m) ∧
      (loadIndex newBucketCount b am m).vvNew = update am.vvNew b (insert m (am.vvNew b)) := by
  set info : CAddrInfo := { cards[m] with nRandomPos := some m, nRefCount := refs am.vvNew m }
    with info_def
  have entry : am.mapInfo m = some info := by
    rw [state.infos m, List.getElem?_eq_getElem inside]
    rfl
  have run : loadIndex newBucketCount b am m =
      { setInfo am m { info with nRefCount := info.nRefCount + 1 } with
        vvNew := update am.vvNew b (Insert.insert m (am.vvNew b)) } := by
    have bound : info.nRefCount < newBucketsPerAddress := few
    simp only [loadIndex, entry, getD_some, bound, and_self, if_true]
  rw [run]
  refine ⟨⟨fun n => ?_, state.nKey, state.nIdCount, state.mapAddr, state.vRandom, state.nTried,
    state.vvTried, state.nNew⟩, rfl⟩
  change update am.mapInfo m (some { info with nRefCount := info.nRefCount + 1 }) n =
    cards[n]?.map fun card => { card with
      nRandomPos := some n
      nRefCount := refs (update am.vvNew b (Insert.insert m (am.vvNew b))) n }
  by_cases here : n = m
  · subst here
    rw [update_self, refs_insert absent, List.getElem?_eq_getElem inside, map_some, info_def]
    push_cast
    rfl
  · rw [update_of_ne here, refs_insert_of_ne here, state.infos n]

theorem loadIndexes_spec (pairs : List (Fin newBucketCount × ℕ)) :
    ∀ (done : List (Fin newBucketCount × ℕ)) (am : CAddrMan), RefsLoaded cards start am →
      am.vvNew = ofPairs done → (done ++ pairs).Nodup → (∀ pair ∈ pairs, pair.2 < cards.length) →
      (∀ m, (refs (ofPairs (done ++ pairs)) m : ℤ) ≤ newBucketsPerAddress) →
      RefsLoaded cards start
          (pairs.foldl (fun am pair => loadIndex newBucketCount pair.1 am pair.2) am) ∧
        (pairs.foldl (fun am pair => loadIndex newBucketCount pair.1 am pair.2) am).vvNew =
          ofPairs (done ++ pairs) := by
  induction pairs with
  | nil =>
    intro done am state table _ _ _
    rw [append_nil]
    exact ⟨state, table⟩
  | cons pair rest ih =>
    obtain ⟨b, m⟩ := pair
    intro done am state table distinct inside bounded
    have fresh : (b, m) ∉ done := fun member => by
      rw [nodup_append] at distinct
      exact distinct.2.2 _ member _ mem_cons_self rfl
    have absent : m ∉ am.vvNew b := by
      rw [table, mem_ofPairs]
      exact fresh
    have few : (refs am.vvNew m : ℤ) < newBucketsPerAddress := by
      have more : refs (ofPairs (done ++ [(b, m)])) m = refs am.vvNew m + 1 := by
        rw [ofPairs_snoc, ← table, refs_insert absent]
      have later : refs (ofPairs (done ++ [(b, m)])) m ≤
          refs (ofPairs (done ++ (b, m) :: rest)) m := by
        apply refs_mono
        intro c n member
        rw [mem_ofPairs] at member ⊢
        rcases mem_append.mp member with before | now
        · exact mem_append_left _ before
        · exact mem_append_right _ (by simp [mem_singleton.mp now])
      have bound := bounded m
      omega
    obtain ⟨next, nextTable⟩ := state.insert (inside (b, m) mem_cons_self) absent few
    have filled : (loadIndex newBucketCount b am m).vvNew = ofPairs (done ++ [(b, m)]) := by
      rw [nextTable, ofPairs_snoc, table]
    have regroup : done ++ [(b, m)] ++ rest = done ++ (b, m) :: rest := by simp
    have final := ih (done ++ [(b, m)]) _ next filled (by rwa [regroup])
      (fun pair member => inside pair (mem_cons_of_mem _ member)) (by rwa [regroup])
    rw [regroup] at final
    exact final

/-! ## The whole file -/

/-- The numbers under which the new entries are written. -/
def numbers (am : CAddrMan) : ℕ → ℕ := (writeNewInfos am.nNew (entries am) 0 fun _ => 0).2

def bucketIndexes (am : CAddrMan) (b : Fin newBucketCount) : List ℕ :=
  ((am.vvNew b).sort (· ≤ ·)).map (numbers am)

def newCards (am : CAddrMan) : List CAddrInfo := ((newEntries am).map fun e => e.2).map onDisk

def triedCards (am : CAddrMan) : List CAddrInfo := ((triedEntries am).map fun e => e.2).map onDisk

/-- The entries of both tables, as the loops file the values that were written. -/
def restoreEntries (params : Params) (am : CAddrMan) : CAddrMan × ℕ :=
  (triedCards am).foldl (loadTried params)
    ({ loadNews params newBucketCount 0 (cleared am.nKey am.nNew am.nTried) (newCards am) with
        nIdCount := am.nNew.toNat }, 0)

def restore (params : Params) (am : CAddrMan) : CAddrMan :=
  (List.finRange newBucketCount).foldl
    (fun am' b => (bucketIndexes am b).foldl (loadIndex newBucketCount b) am')
    (lessLost (restoreEntries params am))

section Whole
variable (consistent : Consistent am)
include consistent

theorem written_new : (writeNewInfos am.nNew (entries am) 0 fun _ => 0).1 =
      ((newEntries am).map fun e => e.2).flatMap serializeAddrInfo ∧
    ∀ i e, (newEntries am)[i]? = some e → numbers am e.1 = i := by
  obtain ⟨bytes, _, numbered⟩ := writeNewInfos_spec (entries am) 0 (fun _ => 0) entries_nodup
    ((zero_add _).trans (length_newEntries consistent))
  refine ⟨?_, fun i e found => (numbered i e found).trans (Nat.zero_add i)⟩
  rw [bytes, flatMap_map]
  rfl

theorem written_tried : writeTriedInfos am.nTried (entries am) 0 =
    ((triedEntries am).map fun e => e.2).flatMap serializeAddrInfo := by
  have total := length_triedEntries consistent
  rw [writeTriedInfos_spec (entries am) 0 ((zero_add _).trans total), flatMap_map]
  rfl

theorem number_of_new {b : Fin newBucketCount} (member : n ∈ am.vvNew b) :
    ∃ i info, (newEntries am)[i]? = some (n, info) ∧ numbers am n = i := by
  obtain ⟨info, entry, new⟩ := consistent.shelved.inNew member (Set.notMem_empty n)
  have positive := new.referenced
  have listed : (n, info) ∈ newEntries am := by
    rw [newEntries, mem_filter, mem_entries_iff consistent.indexed]
    exact ⟨entry, by simp; omega⟩
  obtain ⟨i, found⟩ := mem_iff_getElem?.mp listed
  exact ⟨i, info, found, (written_new consistent).2 i _ found⟩

theorem serializeAddrMan_eq : serializeAddrMan am =
    leBytes 1 0 ++ (byteString am.nKey ++ (writeInt am.nNew ++ (writeInt am.nTried ++
      (writeInt newBucketCount ++ (((newEntries am).map fun e => e.2).flatMap serializeAddrInfo ++
        (((triedEntries am).map fun e => e.2).flatMap serializeAddrInfo ++
          (finRange newBucketCount).flatMap fun b => writeIndexes (bucketIndexes am b))))))) := by
  have buckets : ∀ b, writeBucket (numbers am) (am.vvNew b) =
      writeIndexes (bucketIndexes am b) := by
    intro b
    rw [writeBucket, bucketIndexes, writeIndexes, length_map, Finset.length_sort, flatMap_map]
  have shape : serializeAddrMan am = leBytes 1 0 ++ byteString am.nKey ++ writeInt am.nNew ++
      writeInt am.nTried ++ writeInt newBucketCount ++
      (writeNewInfos am.nNew (entries am) 0 fun _ => 0).1 ++
      writeTriedInfos am.nTried (entries am) 0 ++
      (finRange newBucketCount).flatMap fun b => writeBucket (numbers am) (am.vvNew b) := rfl
  rw [shape, (written_new consistent).1, written_tried consistent]
  simp only [append_assoc, buckets]

theorem reads_unserializeAddrMan (params : Params) (keySize : am.nKey.length ≤ maxSize) {S : Type}
    {source : Source S} {holds : S → Nat → Bytes → Prop} (delivers : Delivers source holds) :
    Reads holds (unserializeAddrMan source params) (serializeAddrMan am) (restore params am) := by
  have newLength := length_newEntries consistent
  have triedLength := length_triedEntries consistent
  have newBound := nNew_le consistent
  have triedBound := nTried_le consistent
  have newValue : (Int32.ofInt am.nNew).toInt = am.nNew :=
    Int32.toInt_ofInt_of_le (by omega) (by omega)
  have triedValue : (Int32.ofInt am.nTried).toInt = am.nTried :=
    Int32.toInt_ofInt_of_le (by omega) (by omega)
  have bucketValue : (Int32.ofInt newBucketCount).toInt = newBucketCount := by decide
  have newCount : ((newEntries am).map fun e => e.2).length = am.nNew.toNat := by
    rw [length_map]
    omega
  have triedCount : ((triedEntries am).map fun e => e.2).length = am.nTried.toNat := by
    rw [length_map]
    omega
  have short : ∀ b, (bucketIndexes am b).length < 2 ^ 31 := by
    intro b
    have size : (am.vvNew b).card ≤ 64 := consistent.shelved.newRoom b
    rw [bucketIndexes, length_map, Finset.length_sort]
    omega
  have small : ∀ b, ∀ n ∈ bucketIndexes am b, n < 2 ^ 31 := by
    intro b n member
    obtain ⟨id, inBucket, rfl⟩ := List.mem_map.mp member
    obtain ⟨i, info, found, number⟩ :=
      number_of_new consistent ((Finset.mem_sort (· ≤ ·)).mp inBucket)
    have bound := (List.getElem?_eq_some_iff.mp found).1
    omega
  have buckets : Reads holds (if newBucketCount < (newBucketCount : ℤ).toNat then failure
        else readBuckets source newBucketCount
          ((finRange newBucketCount).take (newBucketCount : ℤ).toNat)
          (lessLost (restoreEntries params am)))
      ((finRange newBucketCount).flatMap fun b => writeIndexes (bucketIndexes am b))
      (restore params am) := by
    rw [if_neg (by decide), Int.toNat_natCast, take_of_length_le (by rw [length_finRange])]
    exact reads_readBuckets delivers newBucketCount short small _ _
  rw [serializeAddrMan_eq consistent]
  refine (reads_readLe delivers 1 0 (by decide)).bind ?_
  refine (reads_unserializeBytes delivers keySize).bind ?_
  refine (reads_writeInt delivers am.nNew).bind ?_
  refine (reads_writeInt delivers am.nTried).bind ?_
  refine (reads_writeInt delivers newBucketCount).bind ?_
  rw [newValue, triedValue, bucketValue]
  have news := reads_readNewInfos delivers params newBucketCount
    ((newEntries am).map fun e => e.2) 0 (cleared am.nKey am.nNew am.nTried)
  rw [newCount] at news
  refine news.bind ?_
  have tried := reads_readTriedInfos delivers params ((triedEntries am).map fun e => e.2)
    ({ loadNews params newBucketCount 0 (cleared am.nKey am.nNew am.nTried) (newCards am) with
        nIdCount := am.nNew.toNat }, 0)
  rw [triedCount] at tried
  exact tried.bind buckets

end Whole

/-! ## The address manager that is read back -/

/-- Every tried entry is in the bucket of its address. -/
def InHome (params : Params) (am : CAddrMan) : Prop :=
  ∀ k, ∀ n ∈ am.vvTried k, ∀ info, am.mapInfo n = some info →
    getTriedBucket params am.nKey info = k

/-- The entries in the order in which they are written. -/
def ordered (am : CAddrMan) : List (ℕ × CAddrInfo) := newEntries am ++ triedEntries am

/-- The places of the new buckets in the order in which they are written. -/
def indexPairs (am : CAddrMan) : List (Fin newBucketCount × ℕ) :=
  (List.finRange newBucketCount).flatMap fun b => (bucketIndexes am b).map fun m => (b, m)

/-- An entry as it is filed before the references are counted. -/
def filedCard (e : ℕ × CAddrInfo) : CAddrInfo := { onDisk e.2 with fInTried := e.2.fInTried }

theorem restore_eq (am : CAddrMan) (params : Params) : restore params am =
    (indexPairs am).foldl (fun am pair => loadIndex newBucketCount pair.1 am pair.2)
      (lessLost (restoreEntries params am)) := by
  rw [restore, indexPairs, foldl_flatMap]
  simp only [foldl_map]

section Restored
variable (consistent : Consistent am)
include consistent

theorem ordered_perm : (ordered am).Perm (entries am) := by
  have tried : triedEntries am = (entries am).filter fun e => !decide (e.2.nRefCount ≠ 0) := by
    apply filter_congr
    rintro ⟨n, info⟩ member
    have entry := (mem_entries_iff consistent.indexed).mp member
    have split := nRefCount_ne_zero_iff consistent entry
    cases flag : info.fInTried <;> simp_all
  rw [ordered, newEntries, tried]
  exact filter_append_perm _ _

theorem mem_ordered : (n, info) ∈ ordered am ↔ am.mapInfo n = some info :=
  (ordered_perm consistent).mem_iff.trans (mem_entries_iff consistent.indexed)

theorem ordered_addresses : ((ordered am).map fun e => e.2.toCNetAddr).Nodup := by
  rw [((ordered_perm consistent).map _).nodup_iff]
  refine List.Nodup.map_on ?_ entries_nodup.of_map
  rintro ⟨n, info⟩ inside ⟨m, other⟩ otherInside (same : info.toCNetAddr = other.toCNetAddr)
  have entry := (mem_entries_iff consistent.indexed).mp inside
  have otherEntry := (mem_entries_iff consistent.indexed).mp otherInside
  have first := (consistent.indexed.addresses info.toCNetAddr n).mpr (by rw [addrOf, entry]; rfl)
  have second := (consistent.indexed.addresses info.toCNetAddr m).mpr
    (by rw [addrOf, otherEntry, same]; rfl)
  have ids : n = m := some.inj (first.symm.trans second)
  subst ids
  rw [entry] at otherEntry
  rw [some.inj otherEntry]

theorem cards_addresses :
    ((newCards am ++ triedCards am).map fun info => info.toCNetAddr).Nodup := by
  have same : (newCards am ++ triedCards am).map (fun info => info.toCNetAddr) =
      (ordered am).map fun e => e.2.toCNetAddr := by
    simp only [newCards, triedCards, ordered, map_append, List.map_map]
    rfl
  rw [same]
  exact ordered_addresses consistent

variable {e : ℕ × CAddrInfo} {m : ℕ}

theorem tried_of_mem (member : e ∈ triedEntries am) :
    am.mapInfo e.1 = some e.2 ∧ InTried am.vvTried am.vvNew e.1 e.2 := by
  obtain ⟨inside, flag⟩ := mem_filter.mp member
  have entry := (mem_entries_iff consistent.indexed).mp inside
  refine ⟨entry, ?_⟩
  rcases consistent.shelved.filed _ _ entry (Set.notMem_empty _) with tried | new
  · exact tried
  · simp [new.flag] at flag

theorem new_of_mem (member : e ∈ newEntries am) :
    am.mapInfo e.1 = some e.2 ∧ InNew am.vvTried am.vvNew e.1 e.2 := by
  obtain ⟨inside, referenced⟩ := mem_filter.mp member
  have entry := (mem_entries_iff consistent.indexed).mp inside
  refine ⟨entry, ?_⟩
  rcases consistent.shelved.filed _ _ entry (Set.notMem_empty _) with tried | new
  · simp [tried.unreferenced] at referenced
  · exact new

variable {b : Fin newBucketCount}

theorem triedCards_room (homes : InHome params am) (k : Fin triedBucketCount) :
    ((triedCards am).filter fun info => getTriedBucket params am.nKey info = k).length ≤
      triedBucketSize := by
  set here := (triedEntries am).filter fun e => getTriedBucket params am.nKey e.2 = k with here_def
  have cards : ((triedCards am).filter fun info => getTriedBucket params am.nKey info = k).length =
      (here.map Prod.fst).length := by
    rw [triedCards, List.map_map, List.filter_map, length_map, length_map, here_def]
    rfl
  have nodup : (here.map Prod.fst).Nodup :=
    entries_nodup.sublist ((filter_sublist.trans filter_sublist).map Prod.fst)
  have subset : here.map Prod.fst ⊆ am.vvTried k := by
    intro n member
    obtain ⟨e, inHere, rfl⟩ := List.mem_map.mp member
    obtain ⟨inTried, bucket⟩ := mem_filter.mp inHere
    obtain ⟨entry, tried⟩ := tried_of_mem consistent inTried
    have somewhere : ∃ c, e.1 ∈ am.vvTried c := by
      by_contra nowhere
      have none := places_eq_zero.mpr (not_exists.mp nowhere)
      have once := tried.once
      omega
    obtain ⟨c, inBucket⟩ := somewhere
    have home := homes c e.1 inBucket e.2 entry
    rw [← of_decide_eq_true bucket, home]
    exact inBucket
  rw [cards]
  exact (nodup.subperm subset).length_le.trans (consistent.shelved.triedRoom k)

theorem restoreEntries_spec (homes : InHome params am) :
    ∃ am', restoreEntries params am = (am', 0) ∧
      TriedLoaded params am.nKey (newCards am) (triedCards am) am' ∧ am'.nTried = am.nTried ∧
      am'.nNew = am.nNew ∧ am'.vvNew = fun _ => ∅ := by
  have distinct := cards_addresses consistent
  have empty : Loaded [] (cleared am.nKey am.nNew am.nTried) :=
    ⟨fun m => rfl, fun addr m => by simp [cleared, freshAddrMan], rfl⟩
  obtain ⟨news, tables⟩ := loadNews_spec [] _ empty (by
    rw [map_append, nodup_append] at distinct
    exact distinct.1)
  set filled := loadNews params newBucketCount 0 (cleared am.nKey am.nNew am.nTried) (newCards am)
    with filled_def
  have count : am.nNew.toNat = (newCards am).length := by
    have length := length_newEntries consistent
    rw [newCards, length_map, length_map]
    omega
  have noTried : filled.vvTried = fun _ => [] := tables.vvTried
  have start : TriedLoaded params am.nKey (newCards am) []
      { filled with nIdCount := am.nNew.toNat } := by
    refine ⟨?_, tables.nKey, count, fun k => ?_, fun m => ?_, fun k m member => ?_⟩
    · rw [map_nil, append_nil]
      exact ⟨news.infos, news.addrs, news.random⟩
    · change (filled.vvTried k).length = _
      rw [noTried]
      rfl
    · change places filled.vvTried m = _
      rw [if_neg (by simp), places_eq_zero, noTried]
      simp
    · change m ∈ filled.vvTried k at member
      simp [noTried] at member
  obtain ⟨am', run, loaded, tried, new, buckets⟩ := loadTried_spec [] _ 0 start
    (by rwa [append_nil]) (triedCards_room consistent homes)
  exact ⟨am', run, loaded, tried.trans tables.nTried, new.trans tables.nNew,
    buckets.trans tables.vvNew⟩

/-! ## The numbers in the new buckets -/

theorem mem_bucketIndexes :
    m ∈ bucketIndexes am b ↔ ∃ e, (newEntries am)[m]? = some e ∧ e.1 ∈ am.vvNew b := by
  simp only [bucketIndexes, List.mem_map, Finset.mem_sort]
  constructor
  · rintro ⟨n, inside, rfl⟩
    obtain ⟨i, info, found, number⟩ := number_of_new consistent inside
    exact ⟨(n, info), by rw [number, found], inside⟩
  · rintro ⟨e, found, inside⟩
    exact ⟨e.1, inside, (written_new consistent).2 m e found⟩

theorem bucketIndexes_nodup : (bucketIndexes am b).Nodup := by
  refine List.Nodup.map_on ?_ (Finset.sort_nodup _ _)
  intro n inside m otherInside same
  obtain ⟨i, info, found, number⟩ :=
    number_of_new consistent ((Finset.mem_sort (· ≤ ·)).mp inside)
  obtain ⟨j, other, otherFound, otherNumber⟩ :=
    number_of_new consistent ((Finset.mem_sort (· ≤ ·)).mp otherInside)
  rw [← number, same, otherNumber, otherFound] at found
  exact (congrArg Prod.fst (some.inj found)).symm

theorem mem_indexPairs :
    (b, m) ∈ indexPairs am ↔ ∃ e, (newEntries am)[m]? = some e ∧ e.1 ∈ am.vvNew b := by
  simp [indexPairs, mem_bucketIndexes consistent]

theorem indexPairs_nodup : (indexPairs am).Nodup := by
  rw [indexPairs, nodup_flatMap]
  refine ⟨fun b _ => (bucketIndexes_nodup consistent).map fun m n same =>
    congrArg Prod.snd same, ?_⟩
  refine (nodup_finRange newBucketCount).imp fun {b c} different => ?_
  intro pair first second
  obtain ⟨m, _, rfl⟩ := List.mem_map.mp first
  obtain ⟨n, _, same⟩ := List.mem_map.mp second
  exact different (congrArg Prod.fst same).symm

theorem refs_numbered (found : (newEntries am)[m]? = some e) :
    refs (ofPairs (indexPairs am)) m = refs am.vvNew e.1 := by
  apply refs_congr
  intro b
  rw [mem_ofPairs, mem_indexPairs consistent, found]
  simp

theorem refs_unnumbered (high : (newEntries am).length ≤ m) :
    refs (ofPairs (indexPairs am)) m = 0 := by
  rw [refs_eq_zero]
  intro b
  rw [mem_ofPairs, mem_indexPairs consistent, List.getElem?_eq_none high]
  simp

theorem refs_restored (found : (ordered am)[m]? = some e) :
    (refs (ofPairs (indexPairs am)) m : ℤ) = e.2.nRefCount := by
  rw [ordered, List.getElem?_append] at found
  split at found
  · obtain ⟨_, new⟩ := new_of_mem consistent (mem_of_getElem? found)
    rw [refs_numbered consistent found, new.counted]
  · rename_i high
    obtain ⟨_, tried⟩ := tried_of_mem consistent (mem_of_getElem? found)
    rw [refs_unnumbered consistent (Nat.le_of_not_lt high), tried.unreferenced]
    rfl

/-- What the address manager that is read back looks like. -/
structure Restored (params : Params) (am am' : CAddrMan) : Prop where
  infos : ∀ m, am'.mapInfo m =
    (ordered am)[m]?.map fun e => { e.2 with nLastTry := 0, nRandomPos := some m }
  addrs : ∀ addr m, am'.mapAddr addr = some m ↔
    ∃ e, (ordered am)[m]? = some e ∧ e.2.toCNetAddr = addr
  vRandom : am'.vRandom = List.range (ordered am).length
  nKey : am'.nKey = am.nKey
  nIdCount : am'.nIdCount = (ordered am).length
  nTried : am'.nTried = am.nTried
  nNew : am'.nNew = am.nNew
  vvNew : am'.vvNew = ofPairs (indexPairs am)
  lengths : ∀ k, (am'.vvTried k).length =
    ((triedCards am).filter fun info => getTriedBucket params am.nKey info = k).length
  once : ∀ m, places am'.vvTried m =
    if (newEntries am).length ≤ m ∧ m < (ordered am).length then 1 else 0
  home : InHome params am'

theorem cards_eq : newCards am ++ (triedCards am).map asTried = (ordered am).map filedCard := by
  rw [ordered, map_append, newCards, triedCards, List.map_map, List.map_map, List.map_map]
  congr 1
  · apply map_congr_left
    intro e member
    have flag := (new_of_mem consistent member).2.flag
    simp [filedCard, onDisk, flag]
  · apply map_congr_left
    intro e member
    have flag := (tried_of_mem consistent member).2.flag
    simp [filedCard, onDisk, asTried, flag]

theorem restore_spec (homes : InHome params am) : Restored params am (restore params am) := by
  obtain ⟨filed, run, loaded, nTried, nNew, buckets⟩ := restoreEntries_spec consistent homes
  have cards := cards_eq consistent
  set list := newCards am ++ (triedCards am).map asTried with list_def
  have length : list.length = (ordered am).length := by rw [cards, length_map]
  have unlost : lessLost (filed, 0) = filed := by simp [lessLost]
  have start : RefsLoaded list filed filed := by
    refine ⟨fun m => ?_, rfl, rfl, rfl, rfl, rfl, rfl, rfl⟩
    have none : refs filed.vvNew m = 0 := by
      rw [refs_eq_zero, buckets]
      simp
    rw [loaded.loaded.infos m, ← list_def, cards, List.getElem?_map, Option.map_map,
      Option.map_map, none]
    rfl
  have inside : ∀ pair ∈ indexPairs am, pair.2 < list.length := by
    rintro ⟨b, m⟩ member
    obtain ⟨e, found, _⟩ := (mem_indexPairs consistent).mp member
    have below := (List.getElem?_eq_some_iff.mp found).1
    rw [length, ordered, length_append]
    exact Nat.lt_add_right _ below
  have bounded : ∀ m, (refs (ofPairs (indexPairs am)) m : ℤ) ≤ newBucketsPerAddress := by
    intro m
    by_cases below : m < (newEntries am).length
    · obtain ⟨_, new⟩ := new_of_mem consistent (getElem_mem below)
      rw [refs_numbered consistent (List.getElem?_eq_getElem below), ← new.counted]
      exact new.bounded
    · rw [refs_unnumbered consistent (Nat.le_of_not_lt below)]
      decide
  obtain ⟨final, table⟩ := loadIndexes_spec (indexPairs am) [] filed start
    (by rw [buckets]; rfl) (indexPairs_nodup consistent) inside bounded
  have restored := restore_eq am params
  rw [run, unlost] at restored
  rw [← restored] at final table
  have total : (newCards am).length + (triedCards am).length = (ordered am).length := by
    simp [newCards, triedCards, ordered]
  have infos : ∀ m, (restore params am).mapInfo m =
      (ordered am)[m]?.map fun e => { e.2 with nLastTry := 0, nRandomPos := some m } := by
    intro m
    rw [final.infos m, table, cards, List.getElem?_map, Option.map_map]
    cases found : (ordered am)[m]? with
    | none => rfl
    | some e => simp [filedCard, onDisk, refs_restored consistent found]
  refine ⟨infos, fun addr m => ?_, ?_, ?_, ?_, final.nTried.trans nTried, final.nNew.trans nNew,
    table, fun k => ?_, fun m => ?_, ?_⟩
  · rw [final.mapAddr, loaded.loaded.addrs addr m, ← list_def, cards, List.getElem?_map]
    cases (ordered am)[m]? <;> simp [filedCard, onDisk]
  · rw [final.vRandom, loaded.loaded.random, ← list_def, length]
  · rw [final.nKey, loaded.nKey]
  · rw [final.nIdCount, loaded.nIdCount, total]
  · rw [final.vvTried, loaded.lengths k]
  · rw [final.vvTried, loaded.once m, total, newCards, length_map, length_map]
  · intro k m member info entry
    rw [final.vvTried] at member
    obtain ⟨old, oldEntry, home⟩ := loaded.home k m member
    rw [loaded.loaded.infos m, ← list_def, cards, List.getElem?_map, Option.map_map] at oldEntry
    rw [infos m] at entry
    obtain ⟨e, found, rfl⟩ := map_eq_some_iff.mp entry
    obtain ⟨_, otherFound, rfl⟩ := map_eq_some_iff.mp oldEntry
    rw [found] at otherFound
    cases otherFound
    rw [final.nKey, loaded.nKey]
    exact home

end Restored

/-! ## The same book -/

/-- The ids and the order of `vRandom` and of the tried buckets apart, two address managers
hold the same. -/
structure SameBook (am am' : CAddrMan) : Prop where
  nKey : am'.nKey = am.nKey
  nNew : am'.nNew = am.nNew
  nTried : am'.nTried = am.nTried
  entries : ∀ card flag,
    (∃ n info, am'.mapInfo n = some info ∧ onDisk info = card ∧ info.fInTried = flag) ↔
      ∃ n info, am.mapInfo n = some info ∧ onDisk info = card ∧ info.fInTried = flag
  newBuckets : ∀ b addr, (∃ n ∈ am'.vvNew b, addrOf am' n = some addr) ↔
    ∃ n ∈ am.vvNew b, addrOf am n = some addr

section Same
variable (consistent : Consistent am) (restored : Restored params am am')
include consistent restored

theorem Restored.sameBook : SameBook am am' := by
  refine ⟨restored.nKey, restored.nNew, restored.nTried, fun card flag => ?_, fun b addr => ?_⟩
  · constructor
    · rintro ⟨m, info, entry, same, status⟩
      rw [restored.infos m] at entry
      obtain ⟨⟨n, old⟩, found, rfl⟩ := map_eq_some_iff.mp entry
      exact ⟨n, old, (mem_ordered consistent).mp (mem_of_getElem? found), same, status⟩
    · rintro ⟨n, info, entry, same, status⟩
      obtain ⟨m, found⟩ := mem_iff_getElem?.mp ((mem_ordered consistent).mpr entry)
      exact ⟨m, { info with nLastTry := 0, nRandomPos := some m },
        by rw [restored.infos m, found]; rfl, same, status⟩
  · have addresses : ∀ {m e}, (newEntries am)[m]? = some e → addrOf am' m = addrOf am e.1 := by
      intro m e found
      have below := (List.getElem?_eq_some_iff.mp found).1
      rw [addrOf, addrOf, restored.infos m, ordered, List.getElem?_append_left below, found,
        (new_of_mem consistent (mem_of_getElem? found)).1]
      rfl
    rw [restored.vvNew]
    simp only [mem_ofPairs, mem_indexPairs consistent]
    constructor
    · rintro ⟨m, ⟨e, found, inside⟩, address⟩
      exact ⟨e.1, inside, by rw [← addresses found, address]⟩
    · rintro ⟨n, inside, address⟩
      obtain ⟨m, info, found, _⟩ := number_of_new consistent inside
      exact ⟨m, ⟨(n, info), found, inside⟩, by rw [addresses found, address]⟩

omit consistent in
theorem Restored.indexed : Indexed am' := by
  have loaded : Loaded ((ordered am).map fun e => { e.2 with nLastTry := 0 }) am' := by
    refine ⟨fun m => ?_, fun addr m => ?_, ?_⟩
    · rw [restored.infos m, List.getElem?_map, Option.map_map]
      rfl
    · rw [restored.addrs addr m, List.getElem?_map]
      cases (ordered am)[m]? <;> simp
    · rw [restored.vRandom, length_map]
  apply loaded.indexed
  rw [restored.nIdCount, length_map]

theorem Restored.filed {m : ℕ} (entry : am'.mapInfo m = some info) :
    Filed am'.vvTried am'.vvNew m info := by
  rw [restored.infos m] at entry
  obtain ⟨e, found, rfl⟩ := map_eq_some_iff.mp entry
  have count := refs_restored consistent found
  have below := (List.getElem?_eq_some_iff.mp found).1
  have once := restored.once m
  rw [← restored.vvNew] at count
  rw [ordered, List.getElem?_append] at found
  split at found
  · rename_i isNew
    obtain ⟨_, new⟩ := new_of_mem consistent (mem_of_getElem? found)
    rw [if_neg (by omega)] at once
    exact Or.inr ⟨new.flag, new.referenced, new.bounded, count.symm, once⟩
  · rename_i isTried
    obtain ⟨_, tried⟩ := tried_of_mem consistent (mem_of_getElem? found)
    rw [if_pos ⟨by omega, below⟩] at once
    rw [tried.unreferenced] at count
    exact Or.inl ⟨tried.flag, tried.unreferenced, once, by exact_mod_cast count⟩

theorem Restored.shelved (homes : InHome params am) : Shelved ∅ am' := by
  refine ⟨fun m info entry _ => Restored.filed consistent restored entry, fun m none => ?_,
    fun b => ?_, fun k => ?_⟩
  · rw [restored.infos m, map_eq_none_iff, List.getElem?_eq_none_iff] at none
    refine ⟨by rw [restored.once m, if_neg (by omega)], ?_⟩
    rw [restored.vvNew]
    apply refs_unnumbered consistent
    rw [ordered, length_append] at none
    omega
  · have listed : am'.vvNew b = (bucketIndexes am b).toFinset := by
      ext m
      rw [restored.vvNew, mem_ofPairs, mem_indexPairs consistent, List.mem_toFinset,
        mem_bucketIndexes consistent]
    rw [listed, toFinset_card_of_nodup (bucketIndexes_nodup consistent), bucketIndexes,
      length_map, Finset.length_sort]
    exact consistent.shelved.newRoom b
  · rw [restored.lengths k]
    exact triedCards_room consistent homes k

theorem Restored.counted : Counted am' := by
  refine ⟨?_, ?_⟩
  · simp only [restored.lengths, sum_length_filter]
    rw [restored.nTried, ← length_triedEntries consistent, triedCards, length_map, length_map]
  · rw [restored.nTried, restored.nNew, restored.vRandom, length_range, ordered,
      length_append, ← length_triedEntries consistent, ← length_newEntries consistent]
    push_cast
    omega

end Same

theorem Restored.consistent (restored : Restored params am am') (before : Consistent am)
    (homes : InHome params am) : Consistent am' :=
  Consistent.of_counted restored.indexed (Restored.shelved before restored homes)
    (Restored.counted before restored)

/-! ## Writing and reading back -/

theorem length_serializeAddrInfo : (serializeAddrInfo info).length = 62 := by
  simp [serializeAddrInfo, serializeAddress, serializeService, writeInt, writeUint32, info.sized,
    info.source.sized]

theorem serializeAddrMan_short (consistent : Consistent am) (keySize : am.nKey.length ≤ maxSize) :
    (serializeAddrMan am).length < 2 ^ 32 := by
  have infos : ∀ list : List (ℕ × CAddrInfo),
      ((list.map fun e => e.2).flatMap serializeAddrInfo).length = 62 * list.length := by
    simp [length_flatMap, length_serializeAddrInfo, comp_def, Nat.mul_comm]
  have bucket : ∀ b ∈ finRange newBucketCount,
      (writeIndexes (bucketIndexes am b)).length ≤ 260 := by
    intro b _
    have room : (am.vvNew b).card ≤ 64 := consistent.shelved.newRoom b
    have length : (bucketIndexes am b).length ≤ 64 := by
      rwa [bucketIndexes, length_map, Finset.length_sort]
    simp only [writeIndexes, writeInt, length_append, leBytes_length, length_flatMap, map_const',
      sum_replicate, smul_eq_mul]
    omega
  have buckets : ((finRange newBucketCount).flatMap fun b =>
      writeIndexes (bucketIndexes am b)).length ≤ 256 * 260 := by
    rw [length_flatMap]
    refine (sum_le_card_nsmul _ 260 ?_).trans_eq ?_
    swap
    · rw [length_map, length_finRange]
      rfl
    intro length member
    obtain ⟨b, inside, rfl⟩ := List.mem_map.mp member
    exact bucket b inside
  have key : (byteString am.nKey).length ≤ 9 + 0x02000000 := by
    rw [byteString, length_append, compactSize_length]
    refine Nat.add_le_add ?_ keySize
    unfold getSizeOfCompactSize
    split_ifs <;> decide
  have newBound := (length_newEntries consistent).trans_le (nNew_le consistent)
  have triedBound := (length_triedEntries consistent).trans_le (nTried_le consistent)
  rw [serializeAddrMan_eq consistent]
  simp only [length_append, leBytes_length, writeInt, infos] at buckets key ⊢
  omega

/-- What is written can be read back to the last byte, and holds the same book. -/
theorem peers_round_trip (params : Params) {am : CAddrMan} (consistent : Consistent am)
    (homes : InHome params am) (keySize : am.nKey.length ≤ maxSize) :
    ∃ am', RoundTrips (unserializeAddrMan dataStream params) (unserializeAddrMan autoFile params)
        (serializeAddrMan am) am' ∧
      Consistent am' ∧ InHome params am' ∧ SameBook am am' := by
  have restored := restore_spec consistent homes
  refine ⟨restore params am, ?_, restored.consistent consistent homes, restored.home,
    restored.sameBook consistent⟩
  exact roundTrips_of_reads (reads_unserializeAddrMan consistent params keySize dataStream_delivers)
    (reads_unserializeAddrMan consistent params keySize autoFile_delivers)
    (serializeAddrMan_short consistent keySize)

/-- All groups and all hashes agree. -/
def flatParams : Params := ⟨fun _ => 0, fun _ => [], fun _ => true⟩

def peer (last : UInt8) : CAddress where
  ip := List.replicate 15 0 ++ [last]
  sized := by simp
  port := 8333
  nServices := 1
  nTime := 1440000000
  nLastTry := 0

/-- Two peers are heard of, and the first is connected to. -/
def twoPeers : List Call :=
  [.add (peer 1) (peer 9).toCNetAddr 0 1440000100 fun _ => 0,
    .add (peer 2) (peer 9).toCNetAddr 0 1440000100 fun _ => 0,
    .good (peer 1).toCService 1440000200 fun _ => 0]

theorem peers_round_trip_two : ∃ am, twoPeers.foldlM (call flatParams)
      (freshAddrMan (List.replicate 32 7)) = some am ∧
    ∃ am', RoundTrips (unserializeAddrMan dataStream flatParams)
        (unserializeAddrMan autoFile flatParams) (serializeAddrMan am) am' ∧
      Consistent am' ∧ InHome flatParams am' ∧ SameBook am am' := by
  obtain ⟨am, run, consistent⟩ := run_consistent freshAddrMan_consistent
  have tables : (twoPeers.foldlM (call flatParams) (freshAddrMan (replicate 32 7))).map
      (fun am => (am.nKey, (finRange triedBucketCount).map am.vvTried)) =
      some (replicate 32 7, [0] :: replicate 63 []) := by decide +kernel
  rw [run, map_some, some.injEq, Prod.mk.injEq] at tables
  refine ⟨am, run, peers_round_trip flatParams consistent (fun k n member info _ => ?_) ?_⟩
  · have bucket : am.vvTried k = ([0] :: replicate 63 [] : List (List ℕ))[k] := by
      have at_k := congrArg (fun list => list[k.val]?) tables.2
      simpa using at_k
    cases k using Fin.cases with
    | zero => rfl
    | succ k =>
      have empty : am.vvTried k.succ = [] :=
        bucket.trans (getElem_replicate (a := []) _)
      simp [empty] at member
  · rw [tables.1]
    decide

end SynergyNet.AddrManDisk
