import SynergyFormal.Net.AddrManDisk

/-!
# Evictions from the tried table

`SelectTried` swaps each entry it inspects to the place of its pass, and returns the place from
which the stalest of them was drawn.
-/

set_option autoImplicit false

namespace SynergyNet.Eviction

open AddrMan AddrManInvariant AddrManCalls AddrManDisk

/-- None of the entries is staler than the one at place `j`. -/
def Stalest (mapInfo : ℕ → Option CAddrInfo) (ids : List ℕ) (j : ℕ) : Prop :=
  ∃ n, ids[j]? = some n ∧ ∀ m ∈ ids, lastSuccess mapInfo n ≤ lastSuccess mapInfo m

/-- The position that is returned names a stalest one of the entries inspected, which stand at
the first places after the call. -/
def PicksStalest (am : CAddrMan) (nKBucket : Fin triedBucketCount) (draws : Draws) : Prop :=
  ∃ vTried nOldestPos, selectTried am nKBucket draws = some (vTried, some nOldestPos) ∧
    vTried.Perm (am.vvTried nKBucket) ∧
    Stalest am.mapInfo (vTried.take triedEntriesInspectOnEvict) nOldestPos

/-! ## The entries that are inspected -/

theorem firstStalest_unique {mapInfo : ℕ → Option CAddrInfo} {ids : List ℕ} {i j n m : ℕ}
    (stalest : FirstStalest mapInfo ids i n) (other : FirstStalest mapInfo ids j m) : i = j := by
  have before {i j n m : ℕ} (stalest : FirstStalest mapInfo ids i n)
      (other : FirstStalest mapInfo ids j m) : ¬ i < j := by
    intro less
    have member : n ∈ ids.take j :=
      List.mem_of_getElem? (by rw [List.getElem?_take_of_lt less, stalest.here])
    exact Int64.not_le.mpr (other.first n member)
      (stalest.least m (List.mem_of_getElem? other.here))
  have forward := before stalest other
  have backward := before other stalest
  omega

/-- Where in a bucket that pass `i` and those after it shuffle the entry stood that they leave
at `place`: each pass swaps its own place and the one it draws. -/
def startPlace (draws : Draws) (size : ℕ) : ℕ → ℕ → ℕ → ℕ
  | 0, _, place => place
  | passes + 1, i, place =>
    if i < size then
      Equiv.swap i (drawnPlace draws size i) (startPlace draws size passes (i + 1) place)
    else place

/-- The entries of a bucket that are inspected, in the order of the passes. -/
def inspected (vTried : List ℕ) (draws : Draws) : List ℕ :=
  (List.range triedEntriesInspectOnEvict).filterMap fun i =>
    vTried[startPlace draws vTried.length triedEntriesInspectOnEvict 0 i]?

theorem filterMap_getElem? (vTried : List ℕ) (k : ℕ) :
    (List.range k).filterMap (fun i => vTried[i]?) = vTried.take k := by
  induction k with
  | zero => rfl
  | succ k ih =>
    rw [List.range_succ, List.filterMap_append, ih, List.take_add_one]
    cases here : vTried[k]? <;> simp [here]

theorem getElem?_swap {vTried : List ℕ} {i j : ℕ} (iInside : i < vTried.length)
    (jInside : j < vTried.length) (place : ℕ) :
    ((vTried.set j vTried[i]).set i vTried[j])[place]? = vTried[Equiv.swap i j place]? := by
  rcases eq_or_ne place i with rfl | other
  · rw [Equiv.swap_apply_left, List.getElem?_set_self (by simpa using iInside),
      List.getElem?_eq_getElem jInside]
  rw [List.getElem?_set_ne other.symm]
  rcases eq_or_ne place j with rfl | far
  · rw [Equiv.swap_apply_right, List.getElem?_set_self jInside, List.getElem?_eq_getElem iInside]
  · rw [Equiv.swap_apply_of_ne_of_ne other far, List.getElem?_set_ne far.symm]

theorem selectTriedLoop_places {mapInfo : ℕ → Option CAddrInfo} {draws : Draws} {passes : ℕ}
    {shuffled : List ℕ} {pos : Option ℕ} : ∀ {i : ℕ} {vTried : List ℕ} {oldest : Option (ℕ × ℕ)},
    selectTriedLoop mapInfo draws passes i vTried oldest = some (shuffled, pos) →
    ∀ place, shuffled[place]? = vTried[startPlace draws vTried.length passes i place]? := by
  induction passes with
  | zero =>
    intro i vTried oldest run place
    cases run
    rfl
  | succ passes ih =>
    intro i vTried oldest run place
    unfold selectTriedLoop at run
    unfold startPlace
    by_cases inside : i < vTried.length
    · rw [if_pos inside, ← drawnPlace] at run
      rw [if_pos inside]
      have bound := drawnPlace_lt draws inside
      simp only [List.getElem?_eq_getElem bound, List.getElem?_eq_getElem inside,
        Option.bind_eq_bind, Option.bind_some] at run
      rw [← getElem?_swap inside bound]
      have rest {oldest : Option (ℕ × ℕ)} (run : selectTriedLoop mapInfo draws passes (i + 1)
          ((vTried.set (drawnPlace draws vTried.length i) vTried[i]).set i
            vTried[drawnPlace draws vTried.length i]) oldest = some (shuffled, pos)) := ih run place
      simp only [List.length_set] at rest
      cases oldest with
      | none => exact rest run
      | some old =>
        obtain ⟨infoTemp, -, run⟩ := Option.bind_eq_some_iff.mp run
        obtain ⟨infoOldest, -, run⟩ := Option.bind_eq_some_iff.mp run
        split at run
        · exact rest run
        · exact rest run
    · rw [if_neg inside] at run
      rw [if_neg inside]
      cases run
      rfl

/-- The entry of a pass stands at the place of the pass after the call. -/
theorem take_shuffled {am : CAddrMan} {nKBucket : Fin triedBucketCount} {draws : Draws}
    {vTried : List ℕ} {pos : Option ℕ}
    (run : selectTried am nKBucket draws = some (vTried, pos)) :
    vTried.take triedEntriesInspectOnEvict = inspected (am.vvTried nKBucket) draws := by
  have places := selectTriedLoop_places run
  rw [← filterMap_getElem?, inspected]
  exact congrArg (List.filterMap · _) (funext places)

/-- The entry at the place that the first stalest inspected one is drawn from is inspected too,
and is as stale. -/
theorem selectTried_picksStalest_iff {am : CAddrMan} (consistent : Consistent am)
    (nKBucket : Fin triedBucketCount) (draws : Draws) :
    PicksStalest am nKBucket draws ↔ ∃ i n m,
      FirstStalest am.mapInfo (inspected (am.vvTried nKBucket) draws) i n ∧
      (inspected (am.vvTried nKBucket) draws)[
        drawnPlace draws (am.vvTried nKBucket).length i]? = some m ∧
      lastSuccess am.mapInfo m = lastSuccess am.mapInfo n := by
  have present : ∀ n ∈ am.vvTried nKBucket, ∃ info, am.mapInfo n = some info := fun n member =>
    consistent.shelved.present_of_tried member
  constructor
  · rintro ⟨vTried, nOldestPos, run, perm, m, there, least⟩
    have nonempty : 0 < (am.vvTried nKBucket).length := by
      have member := perm.mem_iff.mp (List.mem_of_mem_take (List.mem_of_getElem? there))
      exact List.length_pos_of_mem member
    obtain ⟨vTried', i, n, run', _, stalest, _⟩ := selectTried_spec draws present nonempty
    obtain ⟨rfl, place⟩ := Prod.mk.inj (Option.some.inj (run.symm.trans run'))
    obtain rfl := Option.some.inj place
    rw [take_shuffled run] at there least stalest
    exact ⟨i, n, m, stalest, there, Int64.le_antisymm
      (least n (List.mem_of_getElem? stalest.here)) (stalest.least m (List.mem_of_getElem? there))⟩
  · rintro ⟨i, n, m, stalest, there, same⟩
    have nonempty : 0 < (am.vvTried nKBucket).length := by
      by_contra empty
      have none := List.eq_nil_of_length_eq_zero (Nat.eq_zero_of_not_pos empty)
      have here := stalest.here
      simp [inspected, none] at here
    obtain ⟨vTried, j, n', run, perm, first, _⟩ := selectTried_spec draws present nonempty
    rw [take_shuffled run] at first
    obtain rfl : i = j := firstStalest_unique stalest first
    refine ⟨vTried, _, run, perm, m, ?_⟩
    rw [take_shuffled run]
    exact ⟨there, fun other member => same ▸ stalest.least other member⟩

/-- Both peers are in one bucket, the second with the older success. -/
def bothConnected : List Call :=
  twoPeers ++ [.good (peer 2).toCService 1440000100 fun _ => 0]

theorem bothConnected_run : ∃ am, Consistent am ∧ am.vvTried 0 = [0, 1] ∧
    (selectTried am 0 fun _ => 1) = some ([1, 0], some 1) ∧
    lastSuccess am.mapInfo 1 < lastSuccess am.mapInfo 0 := by
  obtain ⟨am, run, consistent⟩ := run_consistent freshAddrMan_consistent
  have facts : (bothConnected.foldlM (call flatParams) (freshAddrMan [])).any (fun am =>
      am.vvTried 0 = [0, 1] ∧ (selectTried am 0 fun _ => 1) = some ([1, 0], some 1) ∧
        lastSuccess am.mapInfo 1 < lastSuccess am.mapInfo 0) = true := by decide +kernel
  rw [run] at facts
  exact ⟨am, consistent, of_decide_eq_true facts⟩

/-- Each pass draws its own place; the second finds the staler entry. -/
theorem selectTried_picks_drawnInPlace : ∃ am, Consistent am ∧ am.vvTried 0 = [0, 1] ∧
    PicksStalest am 0 fun _ => 0 := by
  obtain ⟨am, consistent, bucket, _, older⟩ := bothConnected_run
  refine ⟨am, consistent, bucket, (selectTried_picksStalest_iff consistent 0 _).mpr ?_⟩
  have drawn : inspected [0, 1] (fun _ => 0) = [0, 1] := by decide
  rw [bucket, drawn]
  refine ⟨1, 1, 1, ⟨rfl, ?_, ?_⟩, rfl, rfl⟩
  · rw [List.forall_mem_cons, List.forall_mem_singleton]
    exact ⟨Int64.le_of_lt older, Int64.le_refl _⟩
  · rw [List.take_one, List.head?_cons, Option.toList_some, List.forall_mem_singleton]
    exact older

/-- Both passes draw place 1, and the staler entry is drawn first. -/
theorem selectTried_picks_fresher : ∃ am, Consistent am ∧ am.vvTried 0 = [0, 1] ∧
    ¬PicksStalest am 0 fun _ => 1 := by
  obtain ⟨am, consistent, bucket, run, older⟩ := bothConnected_run
  refine ⟨am, consistent, bucket, ?_⟩
  rintro ⟨vTried, nOldestPos, picked, _, m, there, least⟩
  obtain ⟨rfl, place⟩ := Prod.mk.inj (Option.some.inj (run.symm.trans picked))
  obtain rfl := Option.some.inj place
  obtain rfl : 0 = m := Option.some.inj there
  exact Int64.not_le.mpr older (least 1 (by decide))

end SynergyNet.Eviction
