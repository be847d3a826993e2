import SynergyFormal.Net.AddrManInvariant
import Mathlib.Data.List.Induction

/-!
# Every call keeps the address manager consistent

`Add`, `Good`, `Attempt`, `Connected` and `GetAddr` with any outcomes of the random
numbers.  `ShrinkNew` always finds an entry to give up; an entry on its way from the new
to the tried buckets is `Moving`, and the bucket it came from has room for the entry it
displaces.
-/

set_option autoImplicit false

namespace SynergyNet.AddrManCalls

open SynergyLib
open Function Wire Buckets AddrMan AddrManInvariant
open List hiding insert length min set
open Option hiding min
open scoped BigOperators

/-! ## `ShrinkNew` -/

variable {mapInfo : ℕ → Option CAddrInfo} {nNow nTime : Int64} {draws : Draws} {params : Params}
  {info : CAddrInfo} {source : CNetAddr} {addr : CService}

theorem firstTerrible_total (nNow : Int64) :
    ∀ ids : List ℕ, (∀ n ∈ ids, ∃ info, mapInfo n = some info) →
      ∃ found, firstTerrible mapInfo nNow ids = some found ∧ ∀ n, found = some n → n ∈ ids := by
  intro ids
  induction ids with
  | nil => exact fun _ => ⟨none, rfl, by simp⟩
  | cons id rest ih =>
    intro present
    obtain ⟨info, entry⟩ := present id (by simp)
    obtain ⟨found, run, member⟩ := ih fun n inRest =>
      present n (by simp [inRest])
    by_cases terrible : isTerrible nNow info
    · exact ⟨some id, by simp [firstTerrible, entry, terrible], by simp⟩
    · exact ⟨found, by simp [firstTerrible, entry, terrible, run],
        fun n isFound => mem_cons_of_mem id (member n isFound)⟩

/-- The search ends at an entry of the bucket as soon as one of the places ahead is drawn or
an entry was found before. -/
theorem oldestDrawn_total (drawn : List ℕ) : ∀ (ids : List ℕ) (nI : ℕ) (old : Option ℕ),
      (∀ n ∈ ids, ∃ info, mapInfo n = some info) →
      (∀ n, old = some n → ∃ info, mapInfo n = some info) →
      old.isSome ∨ (∃ i ∈ drawn, nI ≤ i ∧ i < nI + ids.length) →
      ∃ oldest, oldestDrawn mapInfo drawn nI ids old = some (some oldest) ∧
        (oldest ∈ ids ∨ old = some oldest) := by
  intro ids
  induction ids with
  | nil =>
    intro nI old _ _ ahead
    rcases ahead with found | ⟨i, _, low, high⟩
    · obtain ⟨n, rfl⟩ := isSome_iff_exists.mp found
      exact ⟨n, rfl, Or.inr rfl⟩
    · simp only [length_nil, Nat.add_zero] at high
      omega
  | cons id rest ih =>
    intro nI old present oldPresent ahead
    have restPresent : ∀ n ∈ rest, ∃ info, mapInfo n = some info := fun n inRest =>
      present n (by simp [inRest])
    have idPresent := present id (by simp)
    have keep : ∀ next : Option ℕ, (∀ n, next = some n → ∃ info, mapInfo n = some info) →
        next.isSome → (next = some id ∨ next = old) →
        ∃ oldest, oldestDrawn mapInfo drawn (nI + 1) rest next = some (some oldest) ∧
          (oldest ∈ id :: rest ∨ old = some oldest) := by
      intro next nextPresent isSome origin
      obtain ⟨oldest, run, member⟩ :=
        ih (nI + 1) next restPresent nextPresent (Or.inl isSome)
      refine ⟨oldest, run, ?_⟩
      rcases member with inRest | same
      · exact Or.inl (mem_cons_of_mem id inRest)
      · rcases origin with isId | isOld
        · rw [isId] at same
          cases same
          exact Or.inl mem_cons_self
        · exact Or.inr (isOld ▸ same)
    unfold oldestDrawn
    by_cases here : nI ∈ drawn
    · rw [if_pos here]
      cases old with
      | none =>
        exact keep (some id) (fun n same => some.inj same ▸ idPresent) rfl (Or.inl rfl)
      | some before =>
        obtain ⟨info, entry⟩ := idPresent
        obtain ⟨infoOld, entryOld⟩ := oldPresent before rfl
        simp only [entry, entryOld, bind_eq_bind, bind_some]
        split
        · exact keep (some id) (fun n same => some.inj same ▸ ⟨info, entry⟩) rfl (Or.inl rfl)
        · exact keep (some before) oldPresent rfl (Or.inr rfl)
    · rw [if_neg here]
      have stillAhead : old.isSome ∨ ∃ i ∈ drawn, nI + 1 ≤ i ∧ i < nI + 1 + rest.length := by
        rcases ahead with found | ⟨i, isDrawn, low, high⟩
        · exact Or.inl found
        · have other : i ≠ nI := fun same => here (same ▸ isDrawn)
          rw [length_cons] at high
          exact Or.inr ⟨i, isDrawn, by omega, by omega⟩
      obtain ⟨oldest, run, member⟩ :=
        ih (nI + 1) old restPresent oldPresent stillAhead
      exact ⟨oldest, run, member.imp_left (mem_cons_of_mem id)⟩

theorem getRandInt_lt {nMax : ℕ} (draw : ℕ) (positive : 0 < nMax) :
    getRandInt draw nMax < nMax := by
  rw [getRandInt, if_neg (by omega)]
  exact Nat.mod_lt draw positive

theorem shrinkNew_drops {hole : Set ℕ} {am : CAddrMan} (shelved : Shelved hole am)
    {b : Fin newBucketCount} (nonempty : 0 < (am.vvNew b).card) :
    ∃ n ∈ am.vvNew b, shrinkNew am b nNow draws = dropFromNew am b n := by
  have inBucket : ∀ n, n ∈ (am.vvNew b).sort (· ≤ ·) ↔ n ∈ am.vvNew b := fun n =>
    Finset.mem_sort (· ≤ ·)
  have present : ∀ n ∈ (am.vvNew b).sort (· ≤ ·), ∃ info, am.mapInfo n = some info :=
    fun n member => shelved.present_of_new ((inBucket n).mp member)
  obtain ⟨found, search, member⟩ := firstTerrible_total nNow _ present
  cases found with
  | some n => exact ⟨n, (inBucket n).mp (member n rfl), by simp [shrinkNew, search]⟩
  | none =>
    have length : ((am.vvNew b).sort (· ≤ ·)).length = (am.vvNew b).card :=
      Finset.length_sort (· ≤ ·)
    set drawn := (List.range 4).map fun i =>
      getRandInt (draws i) ((am.vvNew b).sort (· ≤ ·)).length with drawn_def
    obtain ⟨oldest, run, place⟩ := oldestDrawn_total drawn _ 0 none present (by simp)
      (Or.inr ⟨getRandInt (draws 0) ((am.vvNew b).sort (· ≤ ·)).length,
        List.mem_map.mpr ⟨0, by simp, rfl⟩, Nat.zero_le _, by
          rw [Nat.zero_add, length]
          exact getRandInt_lt _ nonempty⟩)
    refine ⟨oldest, (inBucket oldest).mp (place.resolve_right (by simp)), ?_⟩
    simp only [shrinkNew, search, bind_eq_bind, bind_some, ← drawn_def, run]

/-! ## `Add` -/

variable {n : ℕ} {am : CAddrMan}

theorem addToNew_spec (indexed : Indexed am) (shelved : Shelved {n} am) (counted : Counted am)
    (entry : am.mapInfo n = some info) (flag : info.fInTried = false)
    (bounded : info.nRefCount < newBucketsPerAddress) (refsCount : info.nRefCount = refs am.vvNew n)
    (noPlace : places am.vvTried n = 0) :
    ∃ am', addToNew params am n info source nNow draws = some am' ∧ Consistent am' := by
  set b := getNewBucket params am.nKey info source with b_def
  by_cases inside : n ∈ am.vvNew b
  · refine ⟨am, by simp [addToNew, ← b_def, inside], Consistent.of_counted indexed ?_ counted⟩
    have positive := refs_pos inside
    apply shelved.close
    rintro m rfl _ other found
    cases entry.symm.trans found
    exact Or.inr ⟨flag, by omega, by omega, refsCount, noPlace⟩
  set more : CAddrInfo := { info with nRefCount := info.nRefCount + 1 } with more_def
  set edited := setInfo am n more with edited_def
  have editedIndexed : Indexed edited := indexed.edit entry rfl rfl
  have editedShelved : Shelved {n} edited := shelved.edit entry rfl
  have editedEntry : edited.mapInfo n = some more := by simp [edited_def, setInfo]
  have unfolded : addToNew params am n info source nNow draws =
      (if (am.vvNew b).card = newBucketSize then shrinkNew edited b nNow draws
        else some edited).bind fun am =>
        some { am with vvNew := update am.vvNew b (insert n (am.vvNew b)) } := by
    rw [addToNew, ← b_def, if_neg inside]
    rfl
  -- Whether or not the bucket had to give up an entry, it has room now and `n` is not in it.
  have room : ∃ am', (if (am.vvNew b).card = newBucketSize then shrinkNew edited b nNow draws
      else some edited) = some am' ∧ Indexed am' ∧ Shelved {n} am' ∧ Counted am' ∧
      (am'.vvNew b).card < newBucketSize ∧ n ∉ am'.vvNew b ∧ refs am'.vvNew n = refs am.vvNew n ∧
      am'.vvTried = am.vvTried ∧ (am'.mapInfo n).map unplaced = some (unplaced more) := by
    have present : ∀ m ∈ ({n} : Set ℕ), edited.mapInfo m ≠ none := by
      rintro m rfl
      simp [editedEntry]
    split
    case isTrue full =>
      have nonempty : 0 < (edited.vvNew b).card := by
        change 0 < (am.vvNew b).card
        rw [full]
        decide
      obtain ⟨victim, member, drops⟩ := shrinkNew_drops editedShelved nonempty
      have inBucket : victim ∈ am.vvNew b := member
      have other : victim ∉ ({n} : Set ℕ) := fun same => inside (same ▸ inBucket)
      obtain ⟨after, run, dropped⟩ :=
        dropFromNew_spec editedIndexed editedShelved present member other
      have newBuckets : after.vvNew = update am.vvNew b ((am.vvNew b).erase victim) :=
        dropped.vvNew
      refine ⟨after, drops.trans run, dropped.indexed, dropped.shelved, ⟨?_, ?_⟩, ?_, ?_, ?_,
        dropped.vvTried, ?_⟩
      · rw [dropped.nTried, dropped.vvTried]
        exact counted.tried
      · have total := dropped.total
        have before := counted.total
        rw [dropped.nTried]
        change after.nNew - after.vRandom.length = am.nNew - am.vRandom.length at total
        change am.nTried + after.nNew = after.vRandom.length
        omega
      · rw [newBuckets, update_self, Finset.card_erase_of_mem inBucket, full]
        decide
      · rw [newBuckets, update_self]
        exact fun erased => inside (Finset.mem_of_mem_erase erased)
      · rw [newBuckets]
        exact refs_erase_of_ne fun same => other same.symm
      · rw [dropped.spared n rfl, editedEntry]
        rfl
    case isFalse notFull =>
      have size := shelved.newRoom b
      refine ⟨edited, rfl, editedIndexed, editedShelved, ⟨counted.tried, counted.total⟩, ?_, inside,
        rfl, rfl, by rw [editedEntry]; rfl⟩
      exact Nat.lt_of_le_of_ne size notFull
  obtain ⟨roomy, run, roomyIndexed, roomyShelved, roomyCounted, space, outside, sameRefs, sameTried,
    roomyEntry⟩ := room
  refine ⟨_, by rw [unfolded, run]; rfl, Consistent.of_counted roomyIndexed.tables ?_ ?_⟩
  · apply (roomyShelved.insertRef (by rintro m rfl missing; simp [missing] at roomyEntry) rfl
      space).close
    rintro m rfl _ other found
    have same : unplaced other = unplaced more := by
      change roomy.mapInfo m = some other at found
      rw [found] at roomyEntry
      exact some.inj roomyEntry
    have flags : other.fInTried = info.fInTried := (congrArg CAddrInfo.fInTried same :)
    have counts : other.nRefCount = info.nRefCount + 1 := (congrArg CAddrInfo.nRefCount same :)
    have added : refs (update roomy.vvNew b (insert m (roomy.vvNew b))) m =
        refs am.vvNew m + 1 := by
      rw [refs_insert outside, sameRefs]
    refine Or.inr ⟨flags.trans flag, by omega, by omega, ?_, ?_⟩
    · rw [counts, added]
      omega
    · rw [← noPlace, ← sameTried]
  · exact ⟨roomyCounted.tried, roomyCounted.total⟩

theorem create_spec (consistent : Consistent am) {addr : CAddress}
    (unknown : find am addr.toCNetAddr = none) :
    Indexed (create am addr source) ∧ Shelved {am.nIdCount} (create am addr source) ∧
      places am.vvTried am.nIdCount = 0 ∧ refs am.vvNew am.nIdCount = 0 := by
  have indexed := consistent.indexed
  have shelved := consistent.shelved
  have missing : am.mapInfo am.nIdCount = none := indexed.below _ le_rfl
  have noAddress : am.mapAddr addr.toCNetAddr = none := by
    by_contra known
    obtain ⟨n, found⟩ := ne_none_iff_exists'.mp known
    have filed := (indexed.addresses _ n).mp found
    obtain ⟨info, entry, _⟩ := map_eq_some_iff.mp filed
    simp [find, found, entry] at unknown
  set info : CAddrInfo := { newAddrInfo addr source with nRandomPos := some am.vRandom.length }
  have entries : (create am addr source).mapInfo = update am.mapInfo am.nIdCount (some info) := rfl
  have addrs : addrOf (create am addr source) =
      update (addrOf am) am.nIdCount (some addr.toCNetAddr) :=
    comp_update (Option.map _) am.mapInfo _ (some info)
  have positions : posOf (create am addr source) =
      update (posOf am) am.nIdCount (some am.vRandom.length) :=
    comp_update (Option.bind · _) am.mapInfo _ (some info)
  refine ⟨⟨fun m high => ?_, ?_, ?_, fun m other found => ?_⟩,
    ⟨fun m other found kept => ?_, fun m gone => ?_, shelved.newRoom, shelved.triedRoom⟩,
    shelved.absent _ missing⟩
  · have other : m ≠ am.nIdCount := (Nat.lt_of_succ_le high).ne'
    rw [entries, update_of_ne other]
    exact indexed.below m (Nat.le_of_succ_le high)
  · rw [addrs]
    exact indexed.addresses.insert noAddress (by simp [addrOf, missing])
  · rw [positions]
    exact indexed.positions.append (by simp [posOf, missing])
  · by_cases here : m = am.nIdCount
    · rw [entries, here, update_self] at found
      cases found
      exact ⟨am.vRandom.length, rfl⟩
    · rw [entries, update_of_ne here] at found
      exact indexed.placed m other found
  · have here : m ≠ am.nIdCount := kept
    rw [entries, update_of_ne here] at found
    exact shelved.filed m other found (Set.notMem_empty m)
  · by_cases here : m = am.nIdCount
    · subst here
      exact shelved.absent _ missing
    · rw [entries, update_of_ne here] at gone
      exact shelved.absent m gone

theorem find_entry {addr : CNetAddr} (found : find am addr = some (n, info)) :
    am.mapInfo n = some info := by
  simp only [find, bind_eq_bind, bind_eq_some_iff, Option.pure_def] at found
  obtain ⟨id, _, other, entry, same⟩ := found
  cases same
  exact entry

theorem add_spec (consistent : Consistent am) {addr : CAddress} {nTimePenalty : Int64} :
    ∃ am' fNew, add params am addr source nTimePenalty nNow draws = some (am', fNew) ∧
      Consistent am' := by
  rw [add]
  split
  · exact ⟨am, false, rfl, consistent⟩
  cases found : find am addr.toCNetAddr with
  | some pair =>
    obtain ⟨n, info⟩ := pair
    have entry := find_entry found
    simp only
    set fresh := refresh info addr nTimePenalty nNow
    have refreshed : Consistent (setInfo am n fresh) := consistent.refresh entry rfl rfl rfl rfl
    split
    · exact ⟨_, false, rfl, refreshed⟩
    split
    · exact ⟨_, false, rfl, refreshed⟩
    split
    · exact ⟨_, false, rfl, refreshed⟩
    split
    · exact ⟨_, false, rfl, refreshed⟩
    rename_i notTried notFull _
    have newEntry : (setInfo am n fresh).mapInfo n = some fresh := by simp [setInfo]
    have flag : fresh.fInTried = false := by simpa using notTried
    obtain new : InNew am.vvTried am.vvNew n fresh := by
      rcases refreshed.shelved.filed n _ newEntry (Set.notMem_empty n) with tried | new
      · simp [tried.flag] at flag
      · exact new
    obtain ⟨am', run, after⟩ := addToNew_spec refreshed.indexed
      (refreshed.shelved.mono (Set.empty_subset {n})) refreshed.counted newEntry flag
      (lt_of_le_of_ne new.bounded notFull) new.counted new.notTried
    exact ⟨am', false, by rw [run]; rfl, after⟩
  | none =>
    obtain ⟨indexed, shelved, noPlace, noRef⟩ := create_spec consistent found
    have counted := consistent.counted
    set nId := am.nIdCount
    set blank : CAddrInfo := { newAddrInfo addr source with nRandomPos := some am.vRandom.length }
    set info : CAddrInfo := { newAddrInfo addr source with
      nRandomPos := some am.vRandom.length
      nTime := clampTime (timeOf addr.nTime - nTimePenalty) }
    have blankEntry : (create am addr source).mapInfo nId = some blank := by
      simp [create, nId, blank]
    have edited : Indexed (setInfo (create am addr source) nId info) :=
      indexed.edit blankEntry rfl rfl
    have loose : Shelved {nId} (setInfo (create am addr source) nId info) :=
      shelved.edit blankEntry rfl
    set grown : CAddrMan := { setInfo (create am addr source) nId info with
      nNew := (create am addr source).nNew + 1 } with grown_def
    have grownIndexed : Indexed grown := edited.tables
    have grownShelved : Shelved {nId} grown :=
      ⟨loose.filed, loose.absent, loose.newRoom, loose.triedRoom⟩
    have grownCounted : Counted grown := by
      refine ⟨counted.tried, ?_⟩
      have total := counted.total
      simp only [grown_def, setInfo, create, length_append, length_singleton]
      push_cast
      omega
    have grownEntry : grown.mapInfo nId = some info := by simp [grown_def, setInfo]
    have noReference : info.nRefCount = refs grown.vvNew nId := congrArg Nat.cast noRef.symm
    obtain ⟨am', run, after⟩ := addToNew_spec grownIndexed grownShelved grownCounted grownEntry rfl
      (show (0 : ℤ) < 4 by decide) noReference noPlace
    exact ⟨am', true, congrArg (Option.map fun after => (after, true)) run, after⟩

/-! ## `Good` -/

/-- The place a pass of `SelectTried` draws from. -/
def drawnPlace (draws : Draws) (size i : ℕ) : ℕ := getRandInt (draws i) (size - i) + i

/-- `mapInfo[n].nLastSuccess`. -/
def lastSuccess (mapInfo : ℕ → Option CAddrInfo) (n : ℕ) : Int64 :=
  ((mapInfo n).map CAddrInfo.nLastSuccess).getD 0

/-- None of the entries is staler than `n`, which is the first as stale at place `j`. -/
structure FirstStalest (mapInfo : ℕ → Option CAddrInfo) (ids : List ℕ) (j n : ℕ) : Prop where
  here : ids[j]? = some n
  least : ∀ m ∈ ids, lastSuccess mapInfo n ≤ lastSuccess mapInfo m
  first : ∀ m ∈ ids.take j, lastSuccess mapInfo n < lastSuccess mapInfo m

/-- What the loop remembers of the entries it inspected: the first stalest one, and where it was
drawn. -/
def Remembers (mapInfo : ℕ → Option CAddrInfo) (draws : Draws) (size : ℕ) (inspected : List ℕ)
    (oldest : Option (ℕ × ℕ)) : Prop :=
  ∀ n pos, oldest = some (n, pos) →
    ∃ j, pos = drawnPlace draws size j ∧ FirstStalest mapInfo inspected j n

theorem drawnPlace_lt {size j : ℕ} (draws : Draws) (inside : j < size) :
    drawnPlace draws size j < size := by
  have drawn := getRandInt_lt (draws j) (show 0 < size - j by omega)
  unfold drawnPlace
  omega

theorem take_swap {vTried : List ℕ} {i nPos : ℕ} (inside : i < vTried.length)
    (bound : nPos < vTried.length) (behind : i ≤ nPos) :
    ((vTried.set nPos vTried[i]).set i vTried[nPos]).take (i + 1) =
      vTried.take i ++ [vTried[nPos]] := by
  rw [take_add_one, take_set_of_le le_rfl, take_set_of_le behind]
  simp [inside]

section Staleness
variable {inspected : List ℕ} {j n drawn : ℕ}

theorem FirstStalest.fresher (stalest : FirstStalest mapInfo inspected j n)
    (fresher : ¬lastSuccess mapInfo drawn < lastSuccess mapInfo n) :
    FirstStalest mapInfo (inspected ++ [drawn]) j n := by
  have inside := (List.getElem?_eq_some_iff.mp stalest.here).1
  refine ⟨?_, forall_mem_append.mpr ⟨stalest.least, ?_⟩, ?_⟩
  · rw [List.getElem?_append_left inside, stalest.here]
  · rw [forall_mem_singleton]
    exact Int64.not_lt.mp fresher
  · rw [take_append_of_le_length inside.le]
    exact stalest.first

theorem FirstStalest.staler
    (staler : ∀ m ∈ inspected, lastSuccess mapInfo drawn < lastSuccess mapInfo m) :
    FirstStalest mapInfo (inspected ++ [drawn]) inspected.length drawn := by
  refine ⟨getElem?_concat_length, forall_mem_append.mpr ⟨?_, ?_⟩, ?_⟩
  · exact fun m member => Int64.le_of_lt (staler m member)
  · rw [forall_mem_singleton]
    exact Int64.le_refl _
  · rwa [take_left]

end Staleness

/-- The entry of pass `j` is swapped to place `j` and stays there; what is remembered of the
stalest one is the place it came from. -/
theorem selectTriedLoop_spec (draws : Draws) (passes : ℕ) :
    ∀ (i : ℕ) (vTried : List ℕ) (oldest : Option (ℕ × ℕ)),
      (∀ n ∈ vTried, ∃ info, mapInfo n = some info) → (oldest = none → i = 0) →
      Remembers mapInfo draws vTried.length (vTried.take i) oldest →
      oldest.isSome ∨ (0 < passes ∧ i < vTried.length) →
      ∃ shuffled j n, selectTriedLoop mapInfo draws passes i vTried oldest =
        some (shuffled, some (drawnPlace draws vTried.length j)) ∧ shuffled.Perm vTried ∧
          FirstStalest mapInfo (shuffled.take (i + passes)) j n := by
  have stop : ∀ (i total : ℕ) (vTried : List ℕ) (oldest : Option (ℕ × ℕ)),
      Remembers mapInfo draws vTried.length (vTried.take i) oldest → oldest.isSome →
      vTried.take total = vTried.take i →
      ∃ shuffled j n, some (vTried, oldest.map Prod.snd) =
        some (shuffled, some (drawnPlace draws vTried.length j)) ∧ shuffled.Perm vTried ∧
          FirstStalest mapInfo (shuffled.take total) j n := by
    intro i total vTried oldest known isSome all
    obtain ⟨⟨n, pos⟩, rfl⟩ := isSome_iff_exists.mp isSome
    obtain ⟨j, rfl, stalest⟩ := known n pos rfl
    exact ⟨vTried, j, n, rfl, List.Perm.refl _, all ▸ stalest⟩
  induction passes with
  | zero =>
    intro i vTried oldest _ _ known ahead
    exact stop i i vTried oldest known (ahead.resolve_right (by simp)) rfl
  | succ passes ih =>
    intro i vTried oldest present start known ahead
    unfold selectTriedLoop
    by_cases inside : i < vTried.length
    · rw [if_pos inside]
      have bound := drawnPlace_lt draws inside
      have behind : i ≤ drawnPlace draws vTried.length i := Nat.le_add_left _ _
      rw [← drawnPlace]
      set nPos := drawnPlace draws vTried.length i with nPos_def
      simp only [List.getElem?_eq_getElem bound, List.getElem?_eq_getElem inside,
        bind_eq_bind, bind_some]
      have inspected := take_swap inside bound behind
      set swapped := (vTried.set nPos vTried[i]).set i vTried[nPos] with swapped_def
      have perm : swapped.Perm vTried := set_set_perm bound inside
      -- One more pass, with the stalest of the entries seen so far.
      have next : ∀ n j, FirstStalest mapInfo (vTried.take i ++ [vTried[nPos]]) j n →
          ∃ shuffled last stale, selectTriedLoop mapInfo draws passes (i + 1) swapped
              (some (n, drawnPlace draws vTried.length j)) =
            some (shuffled, some (drawnPlace draws vTried.length last)) ∧
            shuffled.Perm vTried ∧
            FirstStalest mapInfo (shuffled.take (i + (passes + 1))) last stale := by
        intro n j oldest
        rw [← inspected] at oldest
        obtain ⟨shuffled, last, stale, run, permuted, stalest⟩ := ih (i + 1) swapped
          (some (n, drawnPlace draws vTried.length j))
          (fun m inSwapped => present m (perm.mem_iff.mp inSwapped)) (by simp)
          (by
            rintro m p same
            cases same
            exact ⟨j, by rw [perm.length_eq], oldest⟩) (Or.inl rfl)
        rw [perm.length_eq] at run
        rw [Nat.add_right_comm] at stalest
        exact ⟨shuffled, last, stale, run, permuted.trans perm, stalest⟩
      have drawn (all : ∀ m ∈ vTried.take i,
          lastSuccess mapInfo vTried[nPos] < lastSuccess mapInfo m) :
          FirstStalest mapInfo (vTried.take i ++ [vTried[nPos]]) i vTried[nPos] := by
        have stalest := FirstStalest.staler all
        rwa [length_take_of_le inside.le] at stalest
      have drawnMember : vTried[nPos] ∈ vTried := getElem_mem bound
      cases oldest with
      | none =>
        refine next _ i (drawn ?_)
        simp [start rfl]
      | some old =>
        obtain ⟨nOldest, nOldestPos⟩ := old
        obtain ⟨j, rfl, stalest⟩ := known nOldest nOldestPos rfl
        obtain ⟨infoTemp, entryTemp⟩ := present _ drawnMember
        obtain ⟨infoOldest, entryOldest⟩ :=
          present nOldest (mem_of_mem_take (mem_of_getElem? stalest.here))
        have temp : lastSuccess mapInfo vTried[nPos] = infoTemp.nLastSuccess := by
          simp [lastSuccess, entryTemp]
        have old : lastSuccess mapInfo nOldest = infoOldest.nLastSuccess := by
          simp [lastSuccess, entryOldest]
        simp only [entryTemp, entryOldest, bind_some]
        rw [← temp, ← old]
        split
        case isTrue staler =>
          exact next _ i (drawn fun m before =>
            Int64.lt_of_lt_of_le staler (stalest.least m before))
        case isFalse fresher => exact next _ j (stalest.fresher fresher)
    · rw [if_neg inside]
      refine stop i _ vTried oldest known (ahead.resolve_right fun short => inside short.2) ?_
      rw [take_of_length_le (by omega), take_of_length_le (by omega)]

theorem selectTried_spec {k : Fin triedBucketCount} (draws : Draws)
    (present : ∀ n ∈ am.vvTried k, ∃ info, am.mapInfo n = some info)
    (nonempty : 0 < (am.vvTried k).length) :
    ∃ shuffled j n, selectTried am k draws =
        some (shuffled, some (drawnPlace draws (am.vvTried k).length j)) ∧
      shuffled.Perm (am.vvTried k) ∧
      FirstStalest am.mapInfo (shuffled.take triedEntriesInspectOnEvict) j n ∧
      drawnPlace draws (am.vvTried k).length j < shuffled.length := by
  obtain ⟨shuffled, j, n, run, perm, stalest⟩ := selectTriedLoop_spec draws
    triedEntriesInspectOnEvict 0 (am.vvTried k) none present (fun _ => rfl)
    (fun n pos impossible => by cases impossible) (Or.inr ⟨by decide, nonempty⟩)
  rw [Nat.zero_add] at stalest
  refine ⟨shuffled, j, n, run, perm, stalest, ?_⟩
  have inside := (List.getElem?_eq_some_iff.mp stalest.here).1
  rw [length_take, perm.length_eq] at inside
  rw [perm.length_eq]
  exact drawnPlace_lt draws (by omega)

/-- Between the tables: an entry that has left the new buckets and is marked as tried. -/
structure Moving (n : ℕ) (am : CAddrMan) : Prop where
  indexed : Indexed am
  shelved : Shelved {n} am
  entry : ∃ info, am.mapInfo n = some info ∧ info.fInTried = true ∧ info.nRefCount = 0
  noPlace : places am.vvTried n = 0
  noRef : refs am.vvNew n = 0
  tried : am.nTried = ((∑ b, (am.vvTried b).length : ℕ) : ℤ)
  total : am.nTried + am.nNew + 1 = am.vRandom.length

theorem Moving.push (moving : Moving n am) (k : Fin triedBucketCount)
    (room : (am.vvTried k).length < triedBucketSize) : Consistent { am with
      vvTried := update am.vvTried k (am.vvTried k ++ [n])
      nTried := am.nTried + 1 } := by
  obtain ⟨info, entry, flag, count⟩ := moving.entry
  have present : ∀ m ∈ ({n} : Set ℕ), am.mapInfo m ≠ none := by
    rintro m rfl
    simp [entry]
  let grown : CAddrMan := { am with vvTried := update am.vvTried k (am.vvTried k ++ [n]) }
  have pushed : Shelved {n} grown := by
    refine moving.shelved.setTried present (fun m kept => ?_) ?_
    · have other : n ≠ m := fun same => kept same.symm
      simp [count_append, other]
    · rw [length_append]
      exact room
  have once : places grown.vvTried n = 1 := by
    rw [places_append, moving.noPlace, if_pos rfl]
  have filed : Shelved ∅ grown := by
    apply pushed.close
    rintro m rfl _ other found
    cases entry.symm.trans found
    exact Or.inl ⟨flag, count, once, moving.noRef⟩
  refine Consistent.of_counted moving.indexed.tables
    ⟨filed.filed, filed.absent, filed.newRoom, filed.triedRoom⟩ ⟨?_, ?_⟩
  · have moved := sum_update List.length am.vvTried k (am.vvTried k ++ [n])
    rw [length_append, length_singleton] at moved
    have before := moving.tried
    simp only
    omega
  · have total := moving.total
    simp only
    omega

theorem Moving.evict (moving : Moving n am) {k : Fin triedBucketCount} {shuffled : List ℕ}
    (perm : shuffled.Perm (am.vvTried k)) {pos : ℕ} (bound : pos < shuffled.length)
    {infoOld : CAddrInfo} (entryOld : am.mapInfo shuffled[pos] = some infoOld)
    {target : Fin newBucketCount} (space : (am.vvNew target).card < newBucketSize) :
    Consistent { setInfo am shuffled[pos] { infoOld with fInTried := false, nRefCount := 1 } with
      vvNew := update am.vvNew target (insert shuffled[pos] (am.vvNew target))
      nNew := am.nNew + 1
      vvTried := update am.vvTried k (shuffled.set pos n) } := by
  obtain ⟨info, entry, flag, count⟩ := moving.entry
  set old := shuffled[pos] with old_def
  have inBucket : old ∈ am.vvTried k := perm.mem_iff.mp (getElem_mem bound)
  have differ : old ≠ n := fun same => places_eq_zero.mp moving.noPlace k (same ▸ inBucket)
  have oldTried : InTried am.vvTried am.vvNew old infoOld := by
    rcases moving.shelved.filed old infoOld entryOld differ with tried | new
    · exact tried
    · exact absurd inBucket (places_eq_zero.mp new.notTried k)
  -- The bucket has the old entry once less and the new one once more.
  have counts : ∀ m, (shuffled.set pos n).count m =
      (am.vvTried k).count m - (if old = m then 1 else 0) + (if n = m then 1 else 0) := by
    intro m
    rw [count_set bound, perm.count_eq]
    simp [old_def]
  have countOld : 0 < (am.vvTried k).count old := count_pos_iff.mpr inBucket
  have moved := places_update am.vvTried k (shuffled.set pos n)
  have placesNew : places (update am.vvTried k (shuffled.set pos n)) n = 1 := by
    have change_n := moved n
    rw [counts n, if_neg differ, if_pos rfl] at change_n
    have before := moving.noPlace
    omega
  have placesOld : places (update am.vvTried k (shuffled.set pos n)) old = 0 := by
    have change_old := moved old
    rw [counts old, if_pos rfl, if_neg differ.symm] at change_old
    have before := oldTried.once
    omega
  have present : ∀ m ∈ ({n, old} : Set ℕ), am.mapInfo m ≠ none := by
    rintro m (rfl | rfl)
    · simp [entry]
    · simp [entryOld]
  have both : Shelved {n, old} am := moving.shelved.mono (by simp)
  have referenced := both.insertRef present (Set.mem_insert_of_mem n rfl) space
  let swapped : CAddrMan := { am with
    vvNew := update am.vvNew target (insert old (am.vvNew target))
    vvTried := update am.vvTried k (shuffled.set pos n) }
  have placed : Shelved {n, old} swapped := by
    refine referenced.setTried present (fun m kept => ?_) ?_
    · have notNew : n ≠ m := fun same => kept (by simp [same])
      have notOld : old ≠ m := fun same => kept (by simp [same])
      rw [counts m, if_neg notOld, if_neg notNew]
      rfl
    · rw [length_set, perm.length_eq]
      exact moving.shelved.triedRoom k
  set back : CAddrInfo := { infoOld with fInTried := false, nRefCount := 1 }
  have loose : Shelved {n, old} (setInfo swapped old back) :=
    placed.edit entryOld (Set.mem_insert_of_mem n rfl)
  have absent : old ∉ am.vvNew target := refs_eq_zero.mp oldTried.notNew target
  have filed : Shelved ∅ (setInfo swapped old back) := by
    apply loose.close
    rintro m (rfl | rfl) _ other found
    · simp only [setInfo, update_of_ne differ.symm] at found
      cases entry.symm.trans found
      refine Or.inl ⟨flag, count, placesNew, ?_⟩
      exact (refs_insert_of_ne differ.symm).trans moving.noRef
    · simp only [setInfo, update_self] at found
      cases found
      refine Or.inr ⟨rfl, le_rfl, show (1 : ℤ) ≤ 4 by decide, ?_, placesOld⟩
      change (1 : ℤ) = refs (update am.vvNew target (insert old (am.vvNew target))) old
      rw [refs_insert absent, oldTried.notNew]
      rfl
  have indexed : Indexed (setInfo am old back) := moving.indexed.edit entryOld rfl rfl
  refine Consistent.of_counted indexed.tables
    ⟨filed.filed, filed.absent, filed.newRoom, filed.triedRoom⟩ ⟨?_, ?_⟩
  · have lengths := sum_update List.length am.vvTried k (shuffled.set pos n)
    rw [length_set, perm.length_eq] at lengths
    have before := moving.tried
    change am.nTried = ((∑ b, (update am.vvTried k (shuffled.set pos n) b).length : ℕ) : ℤ)
    omega
  · have total := moving.total
    change am.nTried + (am.nNew + 1) = am.vRandom.length
    omega

section Calls
variable (consistent : Consistent am)
include consistent

theorem makeTried_spec (entry : am.mapInfo n = some info) {origin : Fin newBucketCount}
    (member : n ∈ am.vvNew origin) :
    ∃ am', makeTried params am info n origin draws = some am' ∧ Consistent am' := by
  have shelved := consistent.shelved
  have counted := consistent.counted
  obtain ⟨found, foundEntry, new⟩ := shelved.inNew member (Set.notMem_empty n)
  cases entry.symm.trans foundEntry
  set k := getTriedBucket params am.nKey info with k_def
  set tried : CAddrInfo := { info with
    nRefCount := info.nRefCount - (Finset.univ.filter fun b => n ∈ am.vvNew b).card
    fInTried := true } with tried_def
  set off := setInfo { am with vvNew := fun b => (am.vvNew b).erase n, nNew := am.nNew - 1 } n tried
    with off_def
  have noRefs : tried.nRefCount = 0 := sub_eq_zero.mpr new.counted
  have edited : Indexed (setInfo am n tried) := consistent.indexed.edit entry rfl rfl
  have loose : Shelved {n}
      (setInfo { am with vvNew := fun b => (am.vvNew b).erase n } n tried) :=
    (shelved.eraseRefs entry).edit entry rfl
  have moving : Moving n off := by
    refine ⟨edited.tables, ⟨loose.filed, loose.absent, loose.newRoom, loose.triedRoom⟩,
      ⟨tried, by simp [off_def, setInfo], rfl, noRefs⟩, new.notTried, refs_eraseAll,
      counted.tried, ?_⟩
    have total := counted.total
    change am.nTried + (am.nNew - 1) + 1 = am.vRandom.length
    omega
  rw [makeTried, if_neg (not_not.mpr member)]
  simp only
  rw [if_neg (not_not.mpr noRefs)]
  split
  case isTrue room => exact ⟨_, rfl, moving.push k room⟩
  case isFalse full =>
    have present : ∀ m ∈ off.vvTried k, ∃ info, off.mapInfo m = some info := fun m inBucket =>
      moving.shelved.present_of_tried inBucket
    have nonempty : 0 < (off.vvTried k).length := by
      have size : ¬ (off.vvTried k).length < 64 := full
      omega
    obtain ⟨shuffled, j, _, select, perm, _, bound⟩ :=
      selectTried_spec draws present nonempty
    set pos := drawnPlace draws (off.vvTried k).length j
    obtain ⟨infoOld, entryOld⟩ := present shuffled[pos] (perm.mem_iff.mp (getElem_mem bound))
    refine ⟨_, by
      simp only [← k_def, ← tried_def, ← off_def, select, List.getElem?_eq_getElem bound, entryOld,
        bind_eq_bind, bind_some]
      rfl, moving.evict perm bound entryOld ?_⟩
    split
    · assumption
    · -- The bucket the entry came from has lost it.
      change ((am.vvNew origin).erase n).card < newBucketSize
      rw [Finset.card_erase_of_mem member]
      have size : (am.vvNew origin).card ≤ 64 := shelved.newRoom origin
      have positive := Finset.card_pos.mpr ⟨n, member⟩
      change (am.vvNew origin).card - 1 < 64
      omega

theorem good_spec : ∃ am', good params am addr nTime draws = some am' ∧ Consistent am' := by
  rw [good]
  cases found : find am addr.toCNetAddr with
  | none => exact ⟨am, rfl, consistent⟩
  | some pair =>
    obtain ⟨n, info⟩ := pair
    simp only
    split
    · exact ⟨am, rfl, consistent⟩
    set edited : CAddrInfo := { info with
      nLastSuccess := nTime, nLastTry := nTime, nTime := UInt32.ofInt nTime.toInt
      nAttempts := 0 }
    have refreshed : Consistent (setInfo am n edited) :=
      consistent.refresh (find_entry found) rfl rfl rfl rfl
    split
    · exact ⟨_, rfl, refreshed⟩
    cases bucket : findNewBucket (setInfo am n edited) n (getRandInt (draws 0) newBucketCount) with
    | none => exact ⟨_, rfl, refreshed⟩
    | some b =>
      have editedEntry : (setInfo am n edited).mapInfo n = some edited :=
        update_self _ _ _
      have member := List.find?_some bucket
      exact makeTried_spec refreshed editedEntry (by simpa using member)

/-! ## The other calls -/

theorem attempt_consistent : Consistent (attempt am addr nTime) := by
  rw [attempt]
  split
  · exact consistent
  · rename_i n info found
    split
    · exact consistent
    · exact consistent.refresh (find_entry found) rfl rfl rfl rfl

theorem connected_consistent : Consistent (connected am addr nTime) := by
  rw [connected]
  split
  · exact consistent
  · rename_i n info found
    split
    · exact consistent
    · split
      · exact consistent.refresh (find_entry found) rfl rfl rfl rfl
      · exact consistent

omit consistent in
theorem getAddrLoop_spec (draws : Draws) (nNodes : ℕ) :
    ∀ (n : ℕ) (am : CAddrMan) (vAddr : List CAddress), Indexed am →
      n + nNodes ≤ am.vRandom.length →
      ∃ am' found, getAddrLoop draws nNodes n am vAddr = some (am', found) ∧ Indexed am' ∧
        Reordered am am' := by
  induction nNodes with
  | zero => exact fun n am vAddr indexed _ => ⟨am, vAddr, rfl, indexed, Reordered.refl am⟩
  | succ nNodes ih =>
    intro n am vAddr indexed bound
    have drawn := getRandInt_lt (draws n) (show 0 < am.vRandom.length - n by omega)
    obtain ⟨swapped, run, swappedIndexed, reordered, _⟩ := swapRandom_spec indexed
      (show n < am.vRandom.length by omega)
      (show getRandInt (draws n) (am.vRandom.length - n) + n < am.vRandom.length by omega)
    have inside : n < swapped.vRandom.length := by
      rw [reordered.length]
      omega
    obtain ⟨info, entry⟩ := swappedIndexed.mem_vRandom.mp (getElem_mem inside)
    obtain ⟨am', found, rest, finalIndexed, more⟩ := ih (n + 1) swapped
      (vAddr ++ [info.toCAddress]) swappedIndexed (by rw [reordered.length]; omega)
    refine ⟨am', found, ?_, finalIndexed, reordered.trans more⟩
    rw [getAddrLoop]
    simp only [run, List.getElem?_eq_getElem inside, entry, bind_eq_bind, bind_some]
    exact rest

theorem getAddr_spec : ∃ am' found, getAddr am draws = some (am', found) ∧ Consistent am' := by
  have percentage : 23 * am.vRandom.length / 100 ≤ am.vRandom.length := by omega
  obtain ⟨am', found, run, indexed, reordered⟩ := getAddrLoop_spec draws
    (min (getAddrMaxPct * am.vRandom.length / 100) getAddrMax) 0 am [] consistent.indexed
    (by rw [Nat.zero_add]; exact (Nat.min_le_left _ _).trans percentage)
  exact ⟨am', found, run, consistent.reordered indexed reordered⟩

/-! ## Every run -/

omit consistent in
theorem freshAddrMan_consistent {nKey : Bytes} : Consistent (freshAddrMan nKey) := by
  refine Consistent.of_counted ⟨fun _ _ => rfl, ?_, ?_, ?_⟩ ⟨?_, fun n _ => ?_, ?_, ?_⟩ ⟨?_, ?_⟩
  · intro addr n
    simp [freshAddrMan, addrOf]
  · intro i n
    simp [freshAddrMan, posOf]
  · simp [freshAddrMan]
  · simp [freshAddrMan]
  · exact ⟨places_eq_zero.mpr (by simp [freshAddrMan]), refs_eq_zero.mpr (by simp [freshAddrMan])⟩
  · simp [freshAddrMan]
  · simp [freshAddrMan]
  · simp [freshAddrMan]
  · simp [freshAddrMan]

theorem call_consistent {c : Call} : ∃ am', call params am c = some am' ∧ Consistent am' := by
  cases c with
  | add addr source nTimePenalty nNow draws =>
    obtain ⟨am', fNew, run, after⟩ := add_spec consistent
    exact ⟨am', by rw [call, run]; rfl, after⟩
  | good addr nTime draws => exact good_spec consistent
  | attempt addr nTime => exact ⟨_, rfl, attempt_consistent consistent⟩
  | connected addr nTime => exact ⟨_, rfl, connected_consistent consistent⟩
  | getAddr draws =>
    obtain ⟨am', found, run, after⟩ := getAddr_spec consistent
    exact ⟨am', by rw [call, run]; rfl, after⟩

theorem run_consistent {calls : List Call} :
    ∃ am', calls.foldlM (call params) am = some am' ∧ Consistent am' := by
  induction calls generalizing am with
  | nil => exact ⟨am, rfl, consistent⟩
  | cons c rest ih =>
    obtain ⟨next, step, after⟩ := call_consistent consistent
    obtain ⟨last, run, final⟩ := ih after
    exact ⟨last, by rw [foldlM_cons, step]; exact run, final⟩

end Calls

section Bounds
variable {am : CAddrMan} (consistent : Consistent am)
include consistent

theorem nNew_le : am.nNew ≤ 16384 := by
  rw [consistent.nNew]
  have within : ∀ b, am.vvNew b ⊆ Finset.range am.nIdCount := by
    intro b n member
    obtain ⟨info, entry⟩ := consistent.shelved.present_of_new member
    exact Finset.mem_range.mpr (consistent.indexed.lt_nIdCount entry)
  have held : ∀ n ∈ newIds am, 1 ≤ refs am.vvNew n := by
    intro n member
    obtain ⟨info, entry, flag⟩ := map_eq_some_iff.mp (Finset.mem_filter.mp member).2
    rcases consistent.shelved.filed n info entry (Set.notMem_empty n) with tried | new
    · simp [tried.flag] at flag
    · have positive := new.referenced
      have same := new.counted
      omega
  have total : (newIds am).card ≤ 16384 := by
    calc (newIds am).card ≤ ∑ n ∈ newIds am, refs am.vvNew n := by
          simpa using Finset.card_nsmul_le_sum (newIds am) (refs am.vvNew) 1 held
      _ ≤ ∑ n ∈ Finset.range am.nIdCount, refs am.vvNew n :=
          Finset.sum_le_sum_of_subset (Finset.filter_subset _ _)
      _ = ∑ b, (am.vvNew b).card := (sum_card within).symm
      _ ≤ newBucketCount * newBucketSize := by
          simpa using Finset.sum_le_card_nsmul Finset.univ (fun b => (am.vvNew b).card)
            newBucketSize fun b _ => consistent.shelved.newRoom b
  exact_mod_cast total

theorem nTried_le : am.nTried ≤ 4096 := by
  rw [consistent.counted.tried]
  have total : ∑ b, (am.vvTried b).length ≤ triedBucketCount * triedBucketSize := by
    simpa using Finset.sum_le_card_nsmul Finset.univ (fun b => (am.vvTried b).length)
      triedBucketSize fun b _ => consistent.shelved.triedRoom b
  exact_mod_cast total

end Bounds

/-- Whatever the peers send, at most 20480 addresses are kept. -/
theorem addresses_bounded (params : Params) (nKey : Bytes) (calls : List Call) :
    ∃ am, calls.foldlM (call params) (freshAddrMan nKey) = some am ∧
      am.vRandom.length ≤ 20480 := by
  obtain ⟨am, run, consistent⟩ := run_consistent freshAddrMan_consistent
  have total := consistent.counted.total
  have newBound := nNew_le consistent
  have triedBound := nTried_le consistent
  exact ⟨am, run, by omega⟩

/-- Whatever the calls, the random numbers and the hashes: no assertion fails, and the
tables are consistent after the last call. -/
theorem calls_keep_consistent (params : Params) (nKey : Bytes) (calls : List Call) :
    ∃ am, calls.foldlM (call params) (freshAddrMan nKey) = some am ∧ Consistent am :=
  run_consistent freshAddrMan_consistent

end SynergyNet.AddrManCalls
