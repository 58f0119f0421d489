import PromTCS.Lsm.VersionSet

/-!
# The files that a query reads

`register_disk_partitions` selects the partitions of both levels that meet the query's
interval, and `AddIterators` opens the files of a partition that may hold a series.

An entry is filed under the partition of its key time, the first time it covers, so its
partition is selected for every interval that meets what it covers exactly when it covers
no time beyond the partition. A file is opened when the source and the metric both lie
between those of its first and last key; keys are ordered by the source first, so for the
metric this is a condition on the file.
-/

namespace PromTCS

open List

namespace Level

/-- The test of `AddIterators` on the decoded keys of a file. -/
def mayHold (sgid : Word) (mid : BitVec 16) (f : TableFile) : Bool :=
  decide (f.smallest.user.sgid ≤ sgid ∧ sgid ≤ f.largest.user.sgid ∧
    f.smallest.user.mid ≤ mid ∧ mid ≤ f.largest.user.mid)

/-- `AddIterators` for the partition that starts at `startIdx`; an iterator is the file
it reads. -/
def addIterators (l : Level) (startIdx : ℕ) (sgid : Word) (mid : BitVec 16) : List TableFile :=
  match l.files[startIdx]? with
  | none => []
  | some f₀ =>
    ((l.files.drop startIdx).takeWhile fun f =>
      decide (f.timeBoundary = f₀.timeBoundary ∧ f.timeInterval = f₀.timeInterval)).filter
        (mayHold sgid mid)

end Level

namespace TableFile

def Contains (f : TableFile) (sgid : Word) (mid : BitVec 16) : Prop :=
  ∃ e ∈ f.entries, e.ikey.user.sgid = sgid ∧ e.ikey.user.mid = mid

end TableFile

/-- The partition whose end is no `int64_t` is not found for its own times. -/
theorem Level.Valid.overlappingPartitions_wrapped {l : Level} (h : l.Valid) {p : Partition}
    (hp : p ∈ l.partitions) (hwraps : 2 ^ 63 < l.rightEdge p) {mint : ℤ}
    (hle : p.boundary.toInt ≤ mint) (maxt : ℤ) : l.overlappingPartitions mint maxt = [] := by
  refine overlappingPartitions_eq_nil fun q hq => ?_
  have hlength : partitionLength.toInt = 7200000 := rfl
  have hedge := h.rightEdge_eq hp
  rcases lt_trichotomy q.boundary.toInt p.boundary.toInt with hlt | heq | hgt
  · have hq' := h.rightEdge_le hq hp hlt
    have hbefore : l.rightEdge q ≤ p.boundary.toInt := by omega
    have hp' := p.boundary.toInt_lt
    rw [Level.lastTime_eq (by rw [h.rightEdge_eq hq]; omega) (by omega)]
    omega
  · rw [h.indexed.eq_of_boundary hq hp (BitVec.eq_of_toInt_eq heq)]
    exact (lastTime_lt hwraps).trans_le hle
  · have hp' := h.rightEdge_le hp hq hgt
    have hq' := q.boundary.toInt_lt
    omega

theorem Level.Valid.mem_addIterators {l : Level} (h : l.Valid) {p : Partition}
    (hp : p ∈ l.partitions) (sgid : Word) (mid : BitVec 16) (f : TableFile) :
    f ∈ l.addIterators p.index sgid mid ↔
      (f ∈ l.files ∧ f.timeBoundary = p.boundary) ∧ Level.mayHold sgid mid f = true := by
  obtain ⟨f₀, hf₀, hb⟩ := h.indexed.starts p hp
  have hfrom : ∀ g, g ∈ l.files.drop p.index ↔
      g ∈ l.files ∧ p.boundary.toInt ≤ g.timeBoundary.toInt := by
    intro g
    rw [← take_length (l := l.files), Level.mem_drop_take_iff, take_length,
      mem_iff_getElem?]
    constructor
    · rintro ⟨i, hi, hle, -⟩
      exact ⟨⟨i, hi⟩, (h.index_le_iff hp hi).1 hle⟩
    · rintro ⟨⟨i, hi⟩, hle⟩
      exact ⟨i, hi, (h.index_le_iff hp hi).2 hle, (List.getElem?_eq_some_iff.1 hi).1⟩
  have hsorted : Merge.Sorted (fun g : TableFile => g.timeBoundary.toInt)
      (l.files.drop p.index) :=
    (h.sorted.sublist (drop_sublist _ _)).imp TableFile.boundary_le_of_timeKey_le
  have htest : ∀ g ∈ l.files.drop p.index, (decide (g.timeBoundary = f₀.timeBoundary ∧
      g.timeInterval = f₀.timeInterval) = true ↔ g.timeBoundary.toInt = p.boundary.toInt) := by
    intro g hg
    have hinterval : g.timeInterval = f₀.timeInterval :=
      (h.filed g ((hfrom g).1 hg).1).interval_eq.trans
        (h.filed f₀ (mem_of_getElem? hf₀)).interval_eq.symm
    rw [decide_eq_true_eq, hb, BitVec.toInt_inj]
    exact and_iff_left hinterval
  rw [Level.addIterators, hf₀, mem_filter,
    hsorted.mem_takeWhile_iff (fun g hg => ((hfrom g).1 hg).2) htest, hfrom, BitVec.toInt_inj]
  refine and_congr_left fun _ => ⟨fun hf => ⟨hf.1.1, hf.2⟩, fun hf => ⟨⟨hf.1, ?_⟩, hf.2⟩⟩
  rw [hf.2]

theorem Level.mayHold_iff {f : TableFile} (h : f.Exact) {sgid : Word} {mid : BitVec 16}
    (hf : f.Contains sgid mid) : Level.mayHold sgid mid f = true ↔
      f.smallest.user.mid ≤ mid ∧ mid ≤ f.largest.user.mid := by
  obtain ⟨e, he, rfl, rfl⟩ := hf
  have hmin := TreeKey.sgid_le (InternalKey.user_le_of_le (h.smallest_le he))
  have hmax := TreeKey.sgid_le (InternalKey.user_le_of_le (h.le_largest he))
  rw [Level.mayHold, decide_eq_true_eq]
  exact ⟨fun hall => ⟨hall.2.2.1, hall.2.2.2⟩, fun hmid => ⟨hmin, hmax, hmid⟩⟩

/-- For a level of a valid version. An iterator is added for every file of a partition
that contains a key of a series exactly if in every such file the metric lies between the
metrics of the first and the last key. -/
theorem addIterators_iff {l : Level} (h : l.Valid) {p : Partition} (hp : p ∈ l.partitions)
    (sgid : Word) (mid : BitVec 16) :
    (∀ f ∈ l.files, f.timeBoundary = p.boundary → f.Contains sgid mid →
        f ∈ l.addIterators p.index sgid mid) ↔
      ∀ f ∈ l.files, f.timeBoundary = p.boundary → f.Contains sgid mid →
        f.smallest.user.mid ≤ mid ∧ mid ≤ f.largest.user.mid := by
  refine forall₄_congr fun f hf hb hcontains => ?_
  rw [h.mem_addIterators hp, Level.mayHold_iff (h.exact f hf) hcontains]
  exact and_iff_right ⟨hf, hb⟩

/-- A file of one series is opened. -/
theorem addIterators_iff_fourPartitions :
    ∃ p ∈ (VersionSet.empty.flush fourPartitions).l0.partitions,
      ∀ f ∈ (VersionSet.empty.flush fourPartitions).l0.files, f.timeBoundary = p.boundary →
        f.Contains 2 2 → f ∈ (VersionSet.empty.flush fourPartitions).l0.addIterators p.index 2 2 := by
  have hv : (VersionSet.empty.flush fourPartitions).l0.Valid :=
    (VersionSet.valid_empty.flush (by decide +kernel)).l0
  have hp : (⟨7200000, 1⟩ : Partition) ∈ (VersionSet.empty.flush fourPartitions).l0.partitions := by
    decide +kernel
  refine ⟨_, hp, (addIterators_iff hv hp 2 2).2 ?_⟩
  have hall : ∀ f ∈ (VersionSet.empty.flush fourPartitions).l0.files,
      f.timeBoundary = 7200000 → f.smallest.user.mid ≤ 2 ∧ 2 ≤ f.largest.user.mid := by
    decide +kernel
  exact fun f hf hb _ => hall f hf hb

/-- Metric 5 of the source 1 is in the file from `(1, 5)` to `(2, 3)`, which is not
opened. -/
theorem addIterators_skipped :
    (⟨0, 0⟩ : Partition) ∈
      (VersionSet.empty.flush [keyEntry 1 5 0 1, keyEntry 2 3 0 2]).l0.partitions ∧
    ∃ f ∈ (VersionSet.empty.flush [keyEntry 1 5 0 1, keyEntry 2 3 0 2]).l0.files,
      keyEntry 1 5 0 1 ∈ f.entries ∧ f.timeBoundary = 0 ∧
      (VersionSet.empty.flush [keyEntry 1 5 0 1, keyEntry 2 3 0 2]).l0.addIterators 0 1 5 = [] := by
  decide +kernel

end PromTCS
