import PromTCS.Lsm.Version

/-!
# Partitions that meet an interval

The overloads of `OverlappingPartitions` search the partitions of a level for the first one
that does not end before the interval and for the first one that starts behind it. The
first overload returns the partitions between, the second the indexes of their files and
the third the number of these.

The last time of a partition is a sum of `int64_t`s. Where the sum wraps around, a partition
seems to end before it starts, and the first search misses it and, since the test then is
not monotone, possibly others.
-/

namespace PromTCS

open List

namespace Level

variable (l : Level) (mint maxt : ℤ)

/-- `OverlappingPartitions` with the number of files as its result. -/
def overlappingCount : ℕ :=
  (l.overlappingRange mint maxt).2 - (l.overlappingRange mint maxt).1

/-- The partitions of the level are disjoint and ascending, and have files. -/
structure Partitioned (l : Level) : Prop where
  boundary_lt : ∀ p ∈ l.partitions, p.boundary.toInt < l.rightEdge p
  index_lt : ∀ p ∈ l.partitions, p.index < l.files.length
  disjoint : l.partitions.Pairwise fun p q => l.rightEdge p ≤ q.boundary.toInt
  ascending : l.partitions.Pairwise fun p q => p.index < q.index

/-- The partition meets the interval from `mint` to `maxt`. -/
def Meets (p : Partition) : Prop :=
  mint ≤ l.rightEdge p - 1 ∧ p.boundary.toInt ≤ maxt

/-- All overloads find exactly the partitions that meet the interval, or their files, in
ascending order. -/
structure LookupExact : Prop where
  sublist : (l.overlappingPartitions mint maxt).Sublist l.partitions
  mem_partitions : ∀ p, p ∈ l.overlappingPartitions mint maxt ↔
    p ∈ l.partitions ∧ l.Meets mint maxt p
  sorted_indexes : (l.overlappingIndexes mint maxt).Pairwise (· < ·)
  mem_indexes : ∀ i, i ∈ l.overlappingIndexes mint maxt ↔ ∃ k p, l.partitions[k]? = some p ∧
    l.Meets mint maxt p ∧ p.index ≤ i ∧ i < l.indexEnd k
  count_eq : l.overlappingCount mint maxt = (l.overlappingIndexes mint maxt).length

namespace Partitioned

variable {l : Level} {p : Partition} {mint maxt : ℤ}

theorem lastTime_eq (h : l.Partitioned) (hfit : l.Fits) (hp : p ∈ l.partitions) :
    l.lastTime p = l.rightEdge p - 1 :=
  Level.lastTime_eq (h.boundary_lt p hp) (hfit p hp)

theorem toAscending (h : l.Partitioned) (hfit : l.Fits) : l.Ascending := by
  refine ⟨h.index_lt, (h.disjoint.and h.ascending).imp_of_mem fun hp _ hpq =>
    ⟨(h.boundary_lt _ hp).trans_le hpq.1, hpq.2⟩, h.disjoint.imp_of_mem fun hp hq hle => ?_⟩
  have hlt := h.boundary_lt _ hq
  rw [h.lastTime_eq hfit hp, h.lastTime_eq hfit hq]
  omega

theorem lookupExact (h : l.Partitioned) (hfit : l.Fits) : l.LookupExact mint maxt where
  sublist := (drop_sublist _ _).trans (take_sublist _ _)
  mem_partitions := fun p => by
    rw [(h.toAscending hfit).mem_overlappingPartitions, Meets]
    refine and_congr_right fun hp => ?_
    rw [h.lastTime_eq hfit hp]
  sorted_indexes := pairwise_lt_range'
  mem_indexes := fun i => by
    rw [(h.toAscending hfit).mem_overlappingIndexes]
    refine exists₂_congr fun k p => and_congr_right fun hp => ?_
    rw [h.lastTime_eq hfit (mem_of_getElem? hp), Meets]
  count_eq := length_range'.symm

/-- A partition with an end that is no `int64_t` is the last one. Even a lookup of its first
time finds nothing. -/
theorem overlappingPartitions_wrapped (h : l.Partitioned) (hp : p ∈ l.partitions)
    (hlt : 2 ^ 63 < l.rightEdge p) : l.overlappingPartitions p.boundary.toInt maxt = [] := by
  refine overlappingPartitions_eq_nil fun q hq => ?_
  obtain ⟨j, hj⟩ := mem_iff_getElem?.1 hq
  obtain ⟨k, hk⟩ := mem_iff_getElem?.1 hp
  rcases lt_trichotomy j k with hjk | rfl | hkj
  · have hle := Merge.rel_of_getElem? h.disjoint hjk hj hk
    have hboundary := p.boundary.toInt_lt
    rw [Level.lastTime_eq (h.boundary_lt q hq) (by omega)]
    omega
  · rw [hk] at hj
    rw [← Option.some.inj hj]
    exact lastTime_lt hlt
  · have hle := Merge.rel_of_getElem? h.disjoint hkj hk hj
    have hboundary := q.boundary.toInt_lt
    omega

end Partitioned

end Level

/-- The lookups in a level are exact for all intervals exactly if no partition ends past the
largest `int64_t`. -/
theorem overlappingPartitions_exact_iff {l : Level} (h : l.Partitioned) :
    (∀ mint maxt : Word, mint.toInt ≤ maxt.toInt → l.LookupExact mint.toInt maxt.toInt) ↔
      ∀ p ∈ l.partitions, l.rightEdge p - 1 < 2 ^ 63 := by
  constructor
  · intro hexact p hp
    by_contra hlt
    have hfound := ((hexact p.boundary p.boundary le_rfl).mem_partitions p).2
      ⟨hp, Int.le_sub_one_of_lt (h.boundary_lt p hp), le_rfl⟩
    rw [h.overlappingPartitions_wrapped hp (by omega)] at hfound
    exact absurd hfound not_mem_nil
  · intro hfit mint maxt _
    exact h.lookupExact fun p hp => Int.le_of_sub_one_lt (hfit p hp)

/-- Three files in two partitions with a gap between them. -/
def gapLevel : Level where
  files := [TableFile.start 1 partitionLength ⟨⟨⟨1, 1, 0⟩, 1⟩, []⟩,
    TableFile.start 2 partitionLength ⟨⟨⟨1, 1, 5⟩, 1⟩, []⟩,
    TableFile.start 3 partitionLength ⟨⟨⟨1, 1, 14400000⟩, 1⟩, []⟩]
  partitions := [⟨0, 0⟩, ⟨14400000, 2⟩]

theorem overlappingPartitions_exact_gap :
    gapLevel.LookupExact 7199999 14399999 ∧
      gapLevel.overlappingPartitions 7199999 14399999 = [⟨0, 0⟩] ∧
      gapLevel.overlappingIndexes 7199999 14399999 = [0, 1] :=
  ⟨(overlappingPartitions_exact_iff ⟨by decide, by decide, by decide, by decide⟩).2 (by decide)
    7199999 14399999 (by decide), by decide, by decide⟩

/-- Level 0 after a flush of entries at the time 0 and at the last time. -/
def lastLevel : Level :=
  saveTo ⟨[], []⟩ (buildTablesTree 2 [⟨⟨⟨1, 1, 0⟩, 1⟩, []⟩,
    ⟨⟨⟨1, 1, 0x7fffffffffffffff⟩, 2⟩, []⟩]) []

/-- The first search starts with the second partition and goes past it. -/
theorem overlappingPartitions_misses :
    lastLevel.Partitioned ∧ lastLevel.overlappingPartitions 0 (2 ^ 63 - 1) = [] ∧
      ¬lastLevel.LookupExact 0 (2 ^ 63 - 1) := by
  have hnone : lastLevel.overlappingPartitions 0 (2 ^ 63 - 1) = [] := by decide +kernel
  refine ⟨⟨by decide +kernel, by decide +kernel, by decide +kernel, by decide +kernel⟩, hnone,
    fun h => ?_⟩
  have hfound := (h.mem_partitions ⟨0, 0⟩).2 ⟨by decide +kernel, by decide +kernel, by decide⟩
  rw [hnone] at hfound
  exact absurd hfound not_mem_nil

end PromTCS
