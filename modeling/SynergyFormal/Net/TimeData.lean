import Mathlib.Data.List.Sort

/-!
# Network-adjusted time

`AddTimeData` (`util.cpp`) and the `CMedianFilter` of 200 values it feeds.  The warning about a
wrong clock is left out.
-/

set_option autoImplicit false

namespace SynergyNet.TimeData

open List hiding length

/-- `-n` wraps around at the least value. -/
def abs64 (n : Int64) : Int64 := if 0 ≤ n then n else -n

/-- `CMedianFilter::input`. -/
def input (vValues : List Int64) (value : Int64) : List Int64 :=
  (if vValues.length = 200 then vValues.tail else vValues) ++ [value]

def median (vValues : List Int64) : Int64 :=
  let vSorted := vValues.insertionSort (· ≤ ·)
  let size := vSorted.length
  if size % 2 = 1 then vSorted.getD (size / 2) 0
  else (vSorted.getD (size / 2 - 1) 0 + vSorted.getD (size / 2) 0) / 2

/-- At most half of the values lie on each side of `m`. -/
def IsMedian (values : List Int64) (m : Int64) : Prop :=
  values.countP (· < m) ≤ values.length / 2 ∧ values.countP (m < ·) ≤ values.length / 2

instance total_le : Std.Total fun (a b : Int64) => a ≤ b := ⟨Int64.le_total⟩
instance trans_le : IsTrans Int64 (· ≤ ·) := ⟨fun _ _ _ => Int64.le_trans⟩

theorem IsMedian.unique {values : List Int64} {m other : Int64} (odd : values.length % 2 = 1)
    (middle : IsMedian values m) (same : IsMedian values other) : m = other := by
  have aside {m other : Int64} (middle : IsMedian values m) (same : IsMedian values other) :
      ¬ m < other := by
    intro less
    -- every value lies above the one or below the other
    have split : values.length ≤ values.countP (m < ·) + values.countP (· < other) := by
      rw [length_eq_countP_add_countP (fun value => decide (m < value))]
      refine Nat.add_le_add_left (countP_mono_left fun value _ low => ?_) _
      have below : value ≤ m := Int64.not_lt.mp (by simpa using low)
      exact decide_eq_true (Int64.lt_of_le_of_lt below less)
    have above := middle.2
    have below := same.1
    omega
  exact Int64.le_antisymm (Int64.not_lt.mp (aside same middle))
    (Int64.not_lt.mp (aside middle same))

theorem median_isMedian {values : List Int64} (odd : values.length % 2 = 1) :
    IsMedian values (median values) := by
  have length : (values.insertionSort (· ≤ ·)).length = values.length := length_insertionSort _ _
  have inside : values.length / 2 < (values.insertionSort (· ≤ ·)).length := by omega
  have middle : median values = (values.insertionSort (· ≤ ·))[values.length / 2] := by
    rw [median, length, if_pos odd, getD_eq_getElem?_getD, getElem?_eq_getElem inside,
      Option.getD_some]
  have split : values.insertionSort (· ≤ ·) =
      (values.insertionSort (· ≤ ·)).take (values.length / 2) ++
        median values :: (values.insertionSort (· ≤ ·)).drop (values.length / 2 + 1) := by
    rw [middle, ← drop_eq_getElem_cons inside, take_append_drop]
  have front : ((values.insertionSort (· ≤ ·)).take (values.length / 2)).length =
      values.length / 2 := length_take_of_le inside.le
  have back : ((values.insertionSort (· ≤ ·)).drop (values.length / 2 + 1)).length =
      values.length / 2 := by
    rw [length_drop]
    omega
  have sorted := pairwise_insertionSort (· ≤ ·) values
  have perm := perm_insertionSort (· ≤ ·) values
  rw [split] at sorted perm
  rw [pairwise_append, pairwise_cons] at sorted
  obtain ⟨-, ⟨above, -⟩, below⟩ := sorted
  constructor
  · have none : (median values :: _).countP (· < median values) = 0 :=
      countP_eq_zero.mpr (by simpa using above)
    rw [← perm.countP_eq, countP_append, none, Nat.add_zero]
    exact countP_le_length.trans front.le
  · rw [← perm.countP_eq, countP_append, countP_cons, countP_eq_zero.mpr, Nat.zero_add]
    · simpa using countP_le_length.trans back.le
    · intro value member
      simpa using below value member (median values) mem_cons_self

theorem median_eq_iff {values : List Int64} {m : Int64} (odd : values.length % 2 = 1) :
    median values = m ↔ IsMedian values m := by
  constructor
  · rintro rfl
    exact median_isMedian odd
  · exact (median_isMedian odd).unique odd

/-- Only let other nodes change our time by so much. -/
def limited (nMedian : Int64) : Int64 := if abs64 nMedian < 70 * 60 then nMedian else 0

theorem length_input (vValues : List Int64) (value : Int64) (room : vValues.length ≤ 200) :
    (input vValues value).length = min (vValues.length + 1) 200 := by
  unfold input
  split <;> simp only [length_append, length_tail, length_singleton] <;> omega

structure Clock (Addr : Type) where
  setKnown : List Addr
  vTimeOffsets : List Int64
  nTimeOffset : Int64
  room : vTimeOffsets.length ≤ 200

section Calls
variable {Addr : Type} [DecidableEq Addr]

def startClock : Clock Addr := ⟨[], [0], 0, by decide⟩

/-- With the time `GetTime` gives. -/
def addTimeData (now : Int64) (clock : Clock Addr) (sample : Addr × Int64) : Clock Addr :=
  if sample.1 ∈ clock.setKnown then clock
  else
    let vTimeOffsets := input clock.vTimeOffsets (sample.2 - now)
    ⟨sample.1 :: clock.setKnown, vTimeOffsets,
      if 5 ≤ vTimeOffsets.length ∧ vTimeOffsets.length % 2 = 1 then limited (median vTimeOffsets)
      else clock.nTimeOffset,
      (length_input _ _ clock.room).trans_le (Nat.min_le_right _ _)⟩

def run (now : Int64) (clock : Clock Addr) (samples : List (Addr × Int64)) : Clock Addr :=
  samples.foldl (addTimeData now) clock

/-! ## The bound -/

abbrev Bounded (nTimeOffset : Int64) : Prop := nTimeOffset.toInt.natAbs < 70 * 60

theorem abs64_lt_iff {n : Int64} (apart : n ≠ Int64.minValue) :
    abs64 n < 70 * 60 ↔ Bounded n := by
  have low := n.le_toInt
  have least : n.toInt ≠ -2 ^ 63 := fun same => apart (Int64.toInt_inj.mp same)
  have bound : (70 * 60 : Int64).toInt = 70 * 60 := by decide
  rw [Int64.lt_iff_toInt_lt, bound, abs64]
  split
  case isTrue positive =>
    have sign : 0 ≤ n.toInt := Int64.le_iff_toInt_le.mp positive
    omega
  case isFalse negative =>
    have sign : n.toInt < 0 := Int64.lt_iff_toInt_lt.mp (Int64.not_le.mp negative)
    rw [Int64.toInt_neg, Int.bmod_eq_of_le (by omega) (by omega)]
    omega

theorem bounded_limited_iff {m : Int64} : Bounded (limited m) ↔ m ≠ Int64.minValue := by
  constructor
  · rintro bounded rfl
    exact absurd bounded (by decide)
  · intro apart
    unfold limited
    split_ifs with near
    · exact (abs64_lt_iff apart).mp near
    · decide

theorem limited_eq_iff {m d : Int64} (near : Bounded d) :
    limited m = d ↔ m = d ∨ d = 0 ∧ ¬abs64 m < 70 * 60 := by
  have apart : d ≠ Int64.minValue := by
    rintro rfl
    exact absurd near (by decide)
  unfold limited
  split_ifs with small
  · rw [or_iff_left fun far => far.2 small]
  · constructor
    · rintro rfl
      exact .inr ⟨rfl, small⟩
    · rintro (rfl | ⟨rfl, -⟩)
      · exact absurd ((abs64_lt_iff apart).mpr near) small
      · rfl

/-! ## The values of the peers -/

/-- The offsets the peers report, each address once. -/
def offsets (now : Int64) : List Addr → List (Addr × Int64) → List Int64
  | _, [] => []
  | known, (ip, nTime) :: rest =>
    if ip ∈ known then offsets now known rest
    else (nTime - now) :: offsets now (ip :: known) rest

/-- Our own offset and those of the peers. -/
def values (now : Int64) (samples : List (Addr × Int64)) : List Int64 :=
  0 :: offsets now [] samples

/-- The values at the last time they were an odd number of at most 200. -/
def lastOdd (values : List Int64) : List Int64 :=
  values.take ((min values.length 200 - 1) / 2 * 2 + 1)

/-- What the offset is when these values have come. -/
def offsetOf (values : List Int64) : Int64 :=
  if (lastOdd values).length < 5 then 0 else limited (median (lastOdd values))

/-- The clock has seen these values. -/
structure Follows (clock : Clock Addr) (values : List Int64) : Prop where
  some : values ≠ []
  window : clock.vTimeOffsets = values.drop (values.length - 200)
  offset : clock.nTimeOffset = offsetOf values

theorem offsetOf_even {values : List Int64} {value : Int64} (some : values ≠ [])
    (even : 200 ≤ values.length ∨ values.length % 2 = 1) :
    offsetOf (values ++ [value]) = offsetOf values := by
  have pos := length_pos_iff.mpr some
  have same : lastOdd (values ++ [value]) = lastOdd values := by
    have count : (min (values.length + 1) 200 - 1) / 2 * 2 + 1 =
        (min values.length 200 - 1) / 2 * 2 + 1 := by omega
    rw [lastOdd, lastOdd, length_append, length_singleton, count,
      take_append_of_le_length (by omega)]
  rw [offsetOf, offsetOf, same]

theorem Follows.add {clock : Clock Addr} {values : List Int64} (follows : Follows clock values)
    {now : Int64} {sample : Addr × Int64} (new : sample.1 ∉ clock.setKnown) :
    Follows (addTimeData now clock sample) (values ++ [sample.2 - now]) := by
  have pos := length_pos_iff.mpr follows.some
  have size : clock.vTimeOffsets.length = min values.length 200 := by
    rw [follows.window, length_drop]
    omega
  have window : input clock.vTimeOffsets (sample.2 - now) =
      (values ++ [sample.2 - now]).drop (values.length + 1 - 200) := by
    rw [drop_append_of_le_length (by omega), input, size, follows.window]
    split_ifs with full
    · have next : values.length - 200 + 1 = values.length + 1 - 200 := by omega
      rw [tail_drop, next]
    · have next : values.length - 200 = values.length + 1 - 200 := by omega
      rw [next]
  have grown := length_input clock.vTimeOffsets (sample.2 - now) clock.room
  rw [size] at grown
  simp only [addTimeData, if_neg new]
  refine ⟨by simp, by rw [length_append, length_singleton]; exact window, ?_⟩
  dsimp only
  rw [grown]
  by_cases even : 200 ≤ values.length ∨ values.length % 2 = 1
  · rw [if_neg (by omega), offsetOf_even follows.some even, follows.offset]
  · have all : lastOdd (values ++ [sample.2 - now]) = values ++ [sample.2 - now] := by
      rw [lastOdd, take_of_length_le]
      simp only [length_append, length_singleton]
      omega
    rw [offsetOf, all, window, length_append, length_singleton,
      Nat.sub_eq_zero_of_le (by omega), drop_zero, follows.offset]
    by_cases few : values.length + 1 < 5
    · have earlier : (lastOdd values).length < 5 := by
        rw [lastOdd, length_take]
        omega
      rw [if_pos few, if_neg (by omega), offsetOf, if_pos earlier]
    · rw [if_neg few, if_pos (by omega)]

theorem Follows.run (now : Int64) (samples : List (Addr × Int64)) : ∀ {clock : Clock Addr}
    {values : List Int64}, Follows clock values →
    Follows (run now clock samples) (values ++ offsets now clock.setKnown samples) := by
  induction samples with
  | nil =>
    intro clock values follows
    rw [offsets, append_nil]
    exact follows
  | cons sample rest ih =>
    intro clock values follows
    by_cases known : sample.1 ∈ clock.setKnown
    · have kept : addTimeData now clock sample = clock := if_pos known
      rw [offsets, if_pos known, TimeData.run, foldl_cons, kept]
      exact ih follows
    · have added : (addTimeData now clock sample).setKnown = sample.1 :: clock.setKnown := by
        rw [addTimeData, if_neg known]
      have step : Follows (addTimeData now clock sample) _ := follows.add known
      have next := ih step
      rw [added, append_assoc, singleton_append] at next
      rw [offsets, if_neg known]
      exact next

omit [DecidableEq Addr] in
theorem startClock_follows : Follows (startClock : Clock Addr) [0] := by
  refine ⟨cons_ne_nil 0 [], ?_, ?_⟩
  · rw [length_singleton, Nat.sub_eq_zero_of_le (by decide), drop_zero]
    rfl
  · rw [offsetOf, if_pos (by decide)]
    rfl

theorem run_follows (now : Int64) (samples : List (Addr × Int64)) :
    Follows (run now startClock samples) (values now samples) := by
  rw [values, ← singleton_append]
  exact startClock_follows.run now samples

/-! ## Following the peers -/

/-- Peers whose clocks are all ahead by `d`. -/
def agreeing (now d : Int64) (peers : List Addr) : List (Addr × Int64) :=
  peers.map fun ip => (ip, now + d)

theorem offsets_agreeing (now d : Int64) {peers : List Addr} (distinct : peers.Nodup) :
    ∀ {known : List Addr}, peers.Disjoint known →
      offsets now known (agreeing now d peers) = replicate peers.length d := by
  induction peers with
  | nil => exact fun _ => rfl
  | cons ip rest ih =>
    intro known apart
    obtain ⟨first, later⟩ := nodup_cons.mp distinct
    obtain ⟨new, others⟩ := disjoint_cons_left.mp apart
    have offset : now + d - now = d := by rw [Int64.add_comm, Int64.add_sub_cancel]
    have tail := ih later (disjoint_cons_right.mpr ⟨first, others⟩)
    rw [agreeing, map_cons, offsets, if_neg new, offset, length_cons, replicate_succ]
    exact congrArg (d :: ·) tail

theorem offsets_append_agreeing (now d : Int64) {peers : List Addr} (distinct : peers.Nodup)
    {samples : List (Addr × Int64)} : ∀ {known : List Addr}, peers.Disjoint known →
      peers.Disjoint (samples.map Prod.fst) →
      offsets now known (samples ++ agreeing now d peers) =
        offsets now known samples ++ replicate peers.length d := by
  induction samples with
  | nil => exact fun apart _ => offsets_agreeing now d distinct apart
  | cons sample rest ih =>
    intro known apart others
    rw [map_cons, disjoint_cons_right] at others
    rw [cons_append, offsets, offsets]
    split_ifs
    · exact ih apart others.2
    · rw [ih (disjoint_cons_right.mpr ⟨others.1, apart⟩) others.2, cons_append]

theorem values_append_agreeing (now d : Int64) {peers : List Addr} (distinct : peers.Nodup)
    {samples : List (Addr × Int64)} (apart : peers.Disjoint (samples.map Prod.fst)) :
    values now (samples ++ agreeing now d peers) =
      values now samples ++ replicate peers.length d := by
  rw [values, offsets_append_agreeing now d distinct (disjoint_nil_right _) apart]
  rfl

/-- The first 199 values, with `d` for those that have not come yet. -/
def filled (values : List Int64) (d : Int64) : List Int64 :=
  values.take 199 ++ replicate (199 - values.length) d

theorem length_filled (values : List Int64) (d : Int64) : (filled values d).length = 199 := by
  rw [filled, length_append, length_take, length_replicate]
  omega

theorem offsetOf_agreeing {values : List Int64} {d : Int64} {n : Nat} (many : 400 ≤ n) :
    offsetOf (values ++ replicate n d) = limited (median (filled values d)) := by
  have last : lastOdd (values ++ replicate n d) = filled values d := by
    rw [lastOdd, length_append, length_replicate, Nat.min_eq_right (by omega)]
    rw [take_append, take_replicate, filled, Nat.min_eq_left (by omega)]
  rw [offsetOf, last, length_filled]
  rfl

theorem minValue_isMedian_iff {values : List Int64} (odd : values.length % 2 = 1) :
    IsMedian values Int64.minValue ↔ values.length < 2 * values.count Int64.minValue := by
  have below : values.countP (· < Int64.minValue) = 0 := countP_eq_zero.mpr fun value _ => by simp
  have split : values.length = values.countP (Int64.minValue < ·) +
      values.count Int64.minValue := by
    rw [length_eq_countP_add_countP (fun value => decide (Int64.minValue < value)), count]
    congr 1
    refine countP_congr fun value _ => ?_
    rw [decide_eq_true_eq, decide_eq_true_eq, Int64.not_lt, beq_iff_eq]
    exact ⟨fun le => Int64.le_antisymm le (Int64.minValue_le value), Int64.le_of_eq⟩
  rw [IsMedian, below]
  omega

theorem bounded_offsetOf_iff (values : List Int64) : Bounded (offsetOf values) ↔
    ¬(5 ≤ (lastOdd values).length ∧
      (lastOdd values).length < 2 * (lastOdd values).count Int64.minValue) := by
  unfold offsetOf
  split_ifs with few
  · exact iff_of_true (by decide) (by omega)
  · have odd : (lastOdd values).length % 2 = 1 := by
      rw [lastOdd, length_take] at few ⊢
      omega
    rw [bounded_limited_iff, ne_eq, median_eq_iff odd, minValue_isMedian_iff odd,
      and_iff_right (Nat.not_lt.mp few)]

/-- The offset is within the bound unless `INT64_MIN` had the majority when the values were last
an odd number, and 400 new peers that agree make it what they say exactly if that is the median
of the first 199 values then, or is 0 and the median is out of bounds. -/
theorem offset_bounded_and_follows (now : Int64) (samples : List (Addr × Int64)) :
    (Bounded (run now startClock samples).nTimeOffset ↔
      ¬(5 ≤ (lastOdd (values now samples)).length ∧
        (lastOdd (values now samples)).length <
          2 * (lastOdd (values now samples)).count Int64.minValue)) ∧
    ∀ d (peers : List Addr), Bounded d → peers.Nodup →
      peers.Disjoint (samples.map Prod.fst) → 400 ≤ peers.length →
      ((run now startClock (samples ++ agreeing now d peers)).nTimeOffset = d ↔
        ∃ m, IsMedian (filled (values now samples) d) m ∧
          (m = d ∨ d = 0 ∧ ¬abs64 m < 70 * 60)) := by
  constructor
  · rw [(run_follows now samples).offset]
    exact bounded_offsetOf_iff _
  · intro d peers near distinct apart many
    have odd : (filled (values now samples) d).length % 2 = 1 := by rw [length_filled]
    rw [(run_follows now _).offset, values_append_agreeing now d distinct apart,
      offsetOf_agreeing many, limited_eq_iff near]
    constructor
    · exact fun agrees => ⟨_, median_isMedian odd, agrees⟩
    · rintro ⟨m, middle, agrees⟩
      rwa [(median_eq_iff odd).mpr middle]

end Calls

/-- Three peers without offset come first; the majority of 199 is ahead by 60 then. -/
theorem offset_follows_later_peers :
    (run 100 startClock (agreeing 100 0 (range 3) ++
      agreeing 100 60 (range' 3 400))).nTimeOffset = 60 := by
  refine ((offset_bounded_and_follows 100 (agreeing 100 0 (range 3))).2 60 _ (by decide)
    nodup_range' ?_ (by simp)).mpr ⟨60, ?_, .inl rfl⟩
  · intro ip later early
    simp [agreeing] at later early
    omega
  · unfold IsMedian
    decide +kernel

/-- The least number passes the limit, and a filter that is full before the peers agree is
not read again. -/
theorem offset_ignores_later_peers :
    (run 100 startClock (agreeing 100 Int64.minValue (range 4))).nTimeOffset = Int64.minValue ∧
      (run 100 startClock (agreeing 100 0 (range 199) ++
        agreeing 100 60 (range' 199 400))).nTimeOffset = 0 := by
  refine ⟨by decide +kernel, ?_⟩
  have apart : (range' 199 400).Disjoint ((agreeing 100 0 (range 199)).map Prod.fst) := by
    intro ip later early
    simp [agreeing] at later early
    omega
  rw [(run_follows 100 _).offset, values_append_agreeing 100 60 nodup_range' apart,
    offsetOf_agreeing (by simp)]
  decide +kernel

end SynergyNet.TimeData
