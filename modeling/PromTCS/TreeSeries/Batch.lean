import Mathlib.Data.List.GetD
import PromTCS.Lib.Updates
import PromTCS.TreeSeries.Store

/-!
# What a batch write does

`OptBatchWriteLazyFlush` sorts the memory slabs and the disk slabs of a batch and
cuts the memory slabs into runs of consecutive ids with `FindSinfoSubSequence`,
called with the index of the last slab. The runs cover the batch from the front.
The last slab is in one of them only when its id follows the id before it, or when
it is the only one: otherwise it is not written and enters no queue.
-/

namespace PromTCS

open List Function

namespace TreeSeries

def keepsLast (q : List ℕ) : Bool :=
  decide (q.length ≤ 1) || q.getD (q.length - 2) 0 + 1 == q.getD (q.length - 1) 0

def numWritten (q : List ℕ) : ℕ :=
  if keepsLast q then q.length else q.length - 1

def runIndices (run : ℕ × ℕ) : List ℕ := List.range' run.1 (run.2 + 1 - run.1)

variable {n start end_ count a d m : ℕ} {q ds ms : List ℕ} {run : ℕ × ℕ} {s s' : TreeSeries}
  {cfg : Setting} {pairs : List (ℕ × ℕ)}

theorem runIndices_append (hle : start ≤ end_) :
    runIndices (start, end_) ++ List.range' (end_ + 1) n =
      List.range' start (end_ + 1 + n - start) := by
  have h : List.range' start (end_ + 1 - start) ++
      List.range' (start + (end_ + 1 - start)) n = _ := range'_append_1
  rw [show start + (end_ + 1 - start) = end_ + 1 by omega,
    show end_ + 1 - start + n = end_ + 1 + n - start by omega] at h
  exact h

theorem flatMap_subSequenceLoop (q : List ℕ) {fuel : ℕ} (hle : start ≤ end_) (hlt : end_ < count)
    (hfuel : count ≤ end_ + fuel) :
    (subSequenceLoop q count fuel start end_).flatMap runIndices =
      List.range' start
        ((if q.getD (count - 1) 0 + 1 = q.getD count 0 then count + 1 else count) - start) := by
  induction fuel generalizing start end_ with
  | zero => omega
  | succ fuel ih =>
    simp only [subSequenceLoop, if_pos (show start < count by omega)]
    by_cases hadj : q.getD end_ 0 + 1 = q.getD (end_ + 1) 0
    · simp only [if_pos hadj]
      by_cases hend : end_ + 1 = count
      · subst hend
        simp only [if_true, Nat.add_sub_cancel, if_pos hadj, flatMap_cons,
          flatMap_nil, append_nil]
        rfl
      · simp only [if_neg hend]
        exact ih (by omega) (by omega) (by omega)
    · simp only [if_neg hadj, flatMap_cons]
      by_cases hend : end_ + 1 = count
      · subst hend
        have hstop : subSequenceLoop q (end_ + 1) fuel (end_ + 1) (end_ + 1) = [] := by
          cases fuel with
          | zero => rfl
          | succ fuel => simp [subSequenceLoop]
        rw [hstop, Nat.add_sub_cancel, if_neg hadj]
        simp [runIndices]
      · rw [ih (Nat.le_refl _) (by omega) (by omega), runIndices_append hle]
        congr 1
        split_ifs <;> omega

theorem flatMap_findSinfoSubSequence (hq : q ≠ []) :
    (findSinfoSubSequence q (q.length - 1)).flatMap runIndices = List.range (numWritten q) := by
  have hpos := length_pos_iff.2 hq
  unfold findSinfoSubSequence numWritten keepsLast
  by_cases hone : q.length - 1 = 0
  · have hlen : q.length = 1 := by omega
    simp [hlen, runIndices, range_eq_range']
  · rw [if_neg hone, flatMap_subSequenceLoop q (Nat.le_refl _) (by omega) (by omega),
      range_eq_range', Nat.sub_zero, show q.length - 1 - 1 = q.length - 2 by omega]
    congr 1
    have hmany : ¬ q.length ≤ 1 := by omega
    simp only [hmany, decide_false, Bool.false_or, beq_iff_eq]
    split_ifs <;> omega

structure IsRun (q : List ℕ) (count : ℕ) (run : ℕ × ℕ) : Prop where
  le : run.1 ≤ run.2
  le_count : run.2 ≤ count
  adjacent : ∀ j, run.1 ≤ j → j < run.2 → q.getD j 0 + 1 = q.getD (j + 1) 0

theorem isRun_subSequenceLoop {fuel : ℕ} (h : IsRun q count (start, end_))
    (hlt : start < count → end_ < count) :
    ∀ run ∈ subSequenceLoop q count fuel start end_, IsRun q count run := by
  induction fuel generalizing start end_ with
  | zero =>
    intro run hrun
    simp [subSequenceLoop] at hrun
  | succ fuel ih =>
    intro run hrun
    simp only [subSequenceLoop] at hrun
    by_cases hstart : start < count
    · have hend := hlt hstart
      rw [if_pos hstart] at hrun
      by_cases hadj : q.getD end_ 0 + 1 = q.getD (end_ + 1) 0
      · rw [if_pos hadj] at hrun
        have hnext : IsRun q count (start, end_ + 1) := by
          refine ⟨Nat.le_succ_of_le h.le, hend, fun j hj hjlt => ?_⟩
          rcases Nat.lt_succ_iff_lt_or_eq.1 hjlt with hjlt | rfl
          · exact h.adjacent j hj hjlt
          · exact hadj
        by_cases hlast : end_ + 1 = count
        · rw [if_pos hlast, mem_singleton] at hrun
          exact hrun ▸ hnext
        · rw [if_neg hlast] at hrun
          exact ih hnext (fun _ => by omega) run hrun
      · rw [if_neg hadj, mem_cons] at hrun
        rcases hrun with rfl | hrun
        · exact h
        · exact ih ⟨Nat.le_refl _, hend, fun j hj hjlt => absurd hjlt (Nat.not_lt.2 hj)⟩ id
            run hrun
    · simp [hstart] at hrun

theorem isRun_findSinfoSubSequence : ∀ run ∈ findSinfoSubSequence q count, IsRun q count run := by
  have hzero : IsRun q count (0, 0) :=
    ⟨Nat.le_refl _, Nat.zero_le _, fun j _ hj => absurd hj (Nat.not_lt_zero _)⟩
  intro run hrun
  unfold findSinfoSubSequence at hrun
  split_ifs at hrun
  · rw [mem_singleton] at hrun
    exact hrun ▸ hzero
  · exact isRun_subSequenceLoop hzero id run hrun

theorem mem_runIndices {j : ℕ} : j ∈ runIndices run ↔ run.1 ≤ j ∧ j ≤ run.2 := by
  rw [runIndices, mem_range'_1]
  omega

structure Partitions (q : List ℕ) (runs : List (ℕ × ℕ)) : Prop where
  isRun : ∀ run ∈ runs, IsRun q (q.length - 1) run
  ascending : runs.Pairwise fun run run' => run.2 < run'.1
  covers : ∀ j < q.length, ∃! run, run ∈ runs ∧ run.1 ≤ j ∧ j ≤ run.2

section

variable {runs : List (ℕ × ℕ)} (hle : ∀ run ∈ runs, run.1 ≤ run.2) {n : ℕ}
  (hall : runs.flatMap runIndices = List.range n)

include hle hall

theorem ascending_of_flatMap : runs.Pairwise fun run run' => run.2 < run'.1 := by
  have hsorted : (runs.flatMap runIndices).Pairwise (· < ·) := hall ▸ pairwise_lt_range
  refine (pairwise_flatMap.1 hsorted).2.imp_of_mem fun {run run'} hrun hrun' hlt => ?_
  exact hlt run.2 (mem_runIndices.2 ⟨hle run hrun, le_rfl⟩) run'.1
    (mem_runIndices.2 ⟨le_rfl, hle run' hrun'⟩)

theorem eq_of_mem_runIndices {run run' : ℕ × ℕ} {j : ℕ} (hrun : run ∈ runs) (hrun' : run' ∈ runs)
    (hj : j ∈ runIndices run) (hj' : j ∈ runIndices run') : run = run' := by
  by_contra hne
  have hapart : runs.Pairwise fun run run' => run.2 < run'.1 ∨ run'.2 < run.1 :=
    (ascending_of_flatMap hle hall).imp Or.inl
  have : Std.Symm fun run run' : ℕ × ℕ => run.2 < run'.1 ∨ run'.2 < run.1 := ⟨fun _ _ => Or.symm⟩
  have hpair := hapart.forall hrun hrun' hne
  rw [mem_runIndices] at hj hj'
  omega

end

theorem partitions_of_flatMap {runs : List (ℕ × ℕ)}
    (hruns : ∀ run ∈ runs, IsRun q (q.length - 1) run)
    (hall : runs.flatMap runIndices = List.range q.length) : Partitions q runs := by
  have hle : ∀ run ∈ runs, run.1 ≤ run.2 := fun run hrun => (hruns run hrun).le
  refine ⟨hruns, ascending_of_flatMap hle hall, fun j hj => ?_⟩
  rw [← mem_range, ← hall, mem_flatMap] at hj
  obtain ⟨run, hrun, hmem⟩ := hj
  refine ⟨run, ⟨hrun, mem_runIndices.1 hmem⟩, ?_⟩
  rintro run' ⟨hrun', hmem'⟩
  exact eq_of_mem_runIndices hle hall hrun' hrun (mem_runIndices.2 hmem') hmem

/-- The runs `FindSinfoSubSequence` finds partition a batch if and only if its last slab
follows the one before it, or is the only one. -/
theorem findSinfoSubSequence_partitions_iff (q : List ℕ) (hne : q ≠ []) :
    Partitions q (findSinfoSubSequence q (q.length - 1)) ↔
      q.length = 1 ∨ q.getD (q.length - 2) 0 + 1 = q.getD (q.length - 1) 0 := by
  have hpos := length_pos_iff.2 hne
  have hall := flatMap_findSinfoSubSequence hne
  have hkeeps : keepsLast q = true ↔
      q.length = 1 ∨ q.getD (q.length - 2) 0 + 1 = q.getD (q.length - 1) 0 := by
    rw [keepsLast, Bool.or_eq_true, decide_eq_true_eq, beq_iff_eq]
    refine or_congr_left ?_
    omega
  rw [← hkeeps]
  constructor
  · intro h
    by_contra hlast
    obtain ⟨run, ⟨hrun, hmem⟩, -⟩ := h.covers (q.length - 1) (by omega)
    have hin : q.length - 1 ∈ List.range (numWritten q) :=
      hall ▸ mem_flatMap.2 ⟨run, hrun, mem_runIndices.2 hmem⟩
    rw [mem_range, numWritten, if_neg hlast] at hin
    exact lt_irrefl _ hin
  · intro hlast
    rw [numWritten, if_pos hlast] at hall
    exact partitions_of_flatMap isRun_findSinfoSubSequence hall

theorem findSinfoSubSequence_partitions_twoRuns :
    Partitions [3, 4, 5, 9, 10] (findSinfoSubSequence [3, 4, 5, 9, 10] 4) :=
  (findSinfoSubSequence_partitions_iff [3, 4, 5, 9, 10] (by decide)).2 (by decide)

/-- The slab with id 5 is in no run. -/
theorem findSinfoSubSequence_drops_last :
    findSinfoSubSequence [3, 5] 1 = [(0, 0)] ∧
      ¬ Partitions [3, 5] (findSinfoSubSequence [3, 5] 1) := by
  refine ⟨rfl, fun h => ?_⟩
  obtain ⟨run, ⟨hrun, hmem⟩, -⟩ := h.covers 1 (by decide)
  rw [show findSinfoSubSequence [3, 5] 1 = [(0, 0)] from rfl, mem_singleton] at hrun
  rw [hrun] at hmem
  exact absurd hmem.2 (by decide)

/-! ## Writing pairs of slabs -/

def copyPairs (s : TreeSeries) (pairs : List (ℕ × ℕ)) : TreeSeries :=
  pairs.foldl (fun s p => s.optWriteToSSD p.1 p.2 1) s

/-- `CopyInfo` and the pushes for all pairs. -/
def linkPairs (s : TreeSeries) (pairs : List (ℕ × ℕ)) : TreeSeries :=
  pairs.foldl (fun s p => s.linkPair p.1 p.2) s

def writePairs (s : TreeSeries) (pairs : List (ℕ × ℕ)) : TreeSeries :=
  (s.copyPairs pairs).linkPairs pairs

theorem copyPairs_append (s : TreeSeries) (pairs pairs' : List (ℕ × ℕ)) :
    s.copyPairs (pairs ++ pairs') = (s.copyPairs pairs).copyPairs pairs' :=
  foldl_append

theorem linkPairs_append (s : TreeSeries) (pairs pairs' : List (ℕ × ℕ)) :
    s.linkPairs (pairs ++ pairs') = (s.linkPairs pairs).linkPairs pairs' :=
  foldl_append

theorem linkPair_copyPairs (s : TreeSeries) (pairs : List (ℕ × ℕ)) (m d : ℕ) :
    (s.copyPairs pairs).linkPair m d = (s.linkPair m d).copyPairs pairs := by
  unfold copyPairs
  induction pairs generalizing s with
  | nil => rfl
  | cons p pairs ih => exact ih (s.optWriteToSSD p.1 p.2 1)

theorem linkPairs_copyPairs (s : TreeSeries) (pairs pairs' : List (ℕ × ℕ)) :
    (s.copyPairs pairs').linkPairs pairs = (s.linkPairs pairs).copyPairs pairs' := by
  induction pairs generalizing s with
  | nil => rfl
  | cons p pairs ih =>
    simp only [linkPairs, foldl_cons] at ih ⊢
    rw [linkPair_copyPairs, ih]

theorem writePairs_append (s : TreeSeries) (pairs pairs' : List (ℕ × ℕ)) :
    s.writePairs (pairs ++ pairs') = (s.writePairs pairs).writePairs pairs' := by
  unfold writePairs
  rw [copyPairs_append, linkPairs_append, linkPairs_copyPairs]

theorem foldl_linkPair_optWriteToSSD (s : TreeSeries) (pairs : List (ℕ × ℕ)) :
    pairs.foldl (fun s p => (s.linkPair p.1 p.2).optWriteToSSD p.1 p.2 1) s =
      s.writePairs pairs := by
  induction pairs generalizing s with
  | nil => rfl
  | cons p pairs ih =>
    rw [foldl_cons, ih, ← singleton_append, writePairs_append]
    rfl

theorem optWriteToSSD_eq_copyPairs (s : TreeSeries) (m d num : ℕ) :
    s.optWriteToSSD m d num =
      s.copyPairs ((List.range num).map fun i => (m + i, d + i)) := by
  induction num with
  | zero =>
    simp only [optWriteToSSD, copyPairs, range_zero, map_nil, foldl_nil]
    congr 1
    funext i
    rw [if_neg (by omega)]
  | succ num ih =>
    rw [range_succ, map_append, copyPairs_append, ← ih]
    simp only [copyPairs, optWriteToSSD, map_cons, map_nil, foldl_cons, foldl_nil]
    congr 1
    funext i
    by_cases hlast : i = d + num
    · subst hlast
      rw [if_pos (by omega), if_pos (by omega)]
      congr 1
      omega
    · rw [if_neg (show ¬ (d + num ≤ i ∧ i < d + num + 1) by omega)]
      by_cases hin : d ≤ i ∧ i < d + num
      · rw [if_pos hin, if_pos (by omega)]
      · rw [if_neg hin, if_neg (by omega)]

theorem getD_add_of_adjacent (h : ∀ j, a ≤ j → j < a + n → q.getD j 0 + 1 = q.getD (j + 1) 0) :
    ∀ i ≤ n, q.getD (a + i) 0 = q.getD a 0 + i := by
  intro i hi
  induction i with
  | zero => rfl
  | succ i ih =>
    rw [← Nat.add_assoc, ← h (a + i) (Nat.le_add_right _ _) (by omega), ih (by omega),
      Nat.add_assoc]

theorem getD_add_le_of_sorted (hq : q.Pairwise (· < ·)) :
    ∀ i, a + i < q.length → q.getD a 0 + i ≤ q.getD (a + i) 0 := by
  intro i hi
  induction i with
  | zero => exact Nat.le_refl _
  | succ i ih =>
    have hstep : q.getD (a + i) 0 < q.getD (a + i + 1) 0 := by
      rw [getD_eq_getElem _ _ (by omega), getD_eq_getElem _ _ (by omega)]
      exact pairwise_iff_getElem.1 hq _ _ _ _ (Nat.lt_succ_self _)
    have hprev := ih (by omega)
    rw [← Nat.add_assoc a i 1]
    omega

theorem getD_add_of_sorted (hq : q.Pairwise (· < ·)) (hlen : a + n < q.length)
    (hn : n = q.getD (a + n) 0 - q.getD a 0) : ∀ i ≤ n, q.getD (a + i) 0 = q.getD a 0 + i := by
  intro i hi
  have hlow := getD_add_le_of_sorted hq i (show a + i < q.length by omega)
  have hhigh := getD_add_le_of_sorted hq (n - i) (show a + i + (n - i) < q.length by omega)
  rw [show a + i + (n - i) = a + n by omega] at hhigh
  omega

def pairAt (ms ds : List ℕ) (j : ℕ) : ℕ × ℕ := (ms.getD j 0, ds.getD j 0)

theorem map_pairAt_runIndices (hrun : IsRun ms count run)
    (hd : ∀ i ≤ run.2 - run.1, ds.getD (run.1 + i) 0 = ds.getD run.1 0 + i) :
    (runIndices run).map (pairAt ms ds) =
      (List.range (run.2 - run.1 + 1)).map fun i => (ms.getD run.1 0 + i, ds.getD run.1 0 + i) := by
  have hle := hrun.le
  have hm := getD_add_of_adjacent (a := run.1) (n := run.2 - run.1)
    fun j hj hlt => hrun.adjacent j hj (by omega)
  rw [runIndices, range'_eq_map_range, map_map,
    show run.2 + 1 - run.1 = run.2 - run.1 + 1 by omega]
  refine map_congr_left fun i hi => ?_
  have hi' : i ≤ run.2 - run.1 := Nat.lt_succ_iff.1 (mem_range.1 hi)
  simp only [Function.comp, pairAt, hm i hi', hd i hi']

theorem consecutive_of_sorted (hds : ds.Pairwise (· < ·)) (hne : ds ≠ []) (hle : run.1 ≤ run.2)
    (hlast : run.2 ≤ ds.length - 1) (hseq : run.2 - run.1 = ds.getD run.2 0 - ds.getD run.1 0) :
    ∀ i ≤ run.2 - run.1, ds.getD (run.1 + i) 0 = ds.getD run.1 0 + i := by
  have hpos := length_pos_iff.2 hne
  refine getD_add_of_sorted hds (by omega) ?_
  rwa [Nat.add_sub_cancel' hle]

theorem writeRun_eq (hds : ds.Pairwise (· < ·)) (s : TreeSeries)
    (hrun : IsRun ms (ds.length - 1) run) (hne : ds ≠ []) :
    s.writeRun ms ds run = s.writePairs ((runIndices run).map (pairAt ms ds)) := by
  unfold writeRun
  simp only
  split_ifs with hseq
  · have hpairs := map_pairAt_runIndices hrun
      (consecutive_of_sorted hds hne hrun.le hrun.le_count hseq)
    rw [optWriteToSSD_eq_copyPairs, ← hpairs, writePairs, linkPairs, foldl_map]
    rfl
  · rw [← foldl_linkPair_optWriteToSSD, foldl_map]
    rfl

theorem foldl_writeRun (hds : ds.Pairwise (· < ·)) (hne : ds ≠ []) (runs : List (ℕ × ℕ))
    (hruns : ∀ run ∈ runs, IsRun ms (ds.length - 1) run) (s : TreeSeries) :
    runs.foldl (writeRun ms ds) s =
      s.writePairs ((runs.flatMap runIndices).map (pairAt ms ds)) := by
  induction runs generalizing s with
  | nil => rfl
  | cons run runs ih =>
    rw [foldl_cons, writeRun_eq hds s (hruns run mem_cons_self) hne,
      ih (fun r hr => hruns r (mem_cons_of_mem _ hr)), flatMap_cons,
      map_append, writePairs_append]

def batchWritten (cfg : Setting) (s : TreeSeries) : List (ℕ × ℕ) :=
  ((sortBySlabId (s.batchFull cfg)).zip (sortBySlabId (s.batchDisk cfg))).take
    (numWritten (sortBySlabId (s.batchFull cfg)))

theorem sortBySlabId_perm (q : List ℕ) : (sortBySlabId q).Perm q :=
  perm_insertionSort _ q

@[simp] theorem length_sortBySlabId (q : List ℕ) : (sortBySlabId q).length = q.length :=
  (sortBySlabId_perm q).length_eq

theorem sortBySlabId_sorted (hq : q.Nodup) : (sortBySlabId q).Pairwise (· < ·) := by
  have hle : (sortBySlabId q).Pairwise (· ≤ ·) := pairwise_insertionSort _ q
  have hne : (sortBySlabId q).Pairwise (· ≠ ·) := (sortBySlabId_perm q).nodup_iff.2 hq
  exact (hle.and hne).imp fun h => Nat.lt_of_le_of_ne h.1 h.2

theorem numWritten_le (q : List ℕ) : numWritten q ≤ q.length := by
  unfold numWritten
  split_ifs <;> omega

theorem map_pairAt_range (hlen : ms.length = ds.length) (hn : n ≤ ms.length) :
    (List.range n).map (pairAt ms ds) = (ms.zip ds).take n := by
  apply ext_getElem
  · simp [← hlen, hn]
  · intro i hi _
    rw [length_map, length_range] at hi
    rw [getElem_map, getElem_range, getElem_take, getElem_zip, pairAt,
      getD_eq_getElem _ _ (by omega), getD_eq_getElem _ _ (by omega)]

theorem sorted_batch (hne : s.batchFull cfg ≠ [])
    (hlen : (s.batchFull cfg).length = (s.batchDisk cfg).length) :
    s.sortedFull cfg ≠ [] ∧ sortBySlabId (s.batchDisk cfg) ≠ [] ∧
      (s.sortedFull cfg).length = (sortBySlabId (s.batchDisk cfg)).length := by
  have hpos := length_pos_iff.2 hne
  refine ⟨?_, ?_, by simp [hlen]⟩
  · rwa [← length_pos_iff, length_sortBySlabId]
  · rwa [← length_pos_iff, length_sortBySlabId, ← hlen]

theorem foldl_writeRun_batch (hne : s.batchFull cfg ≠ [])
    (hlen : (s.batchFull cfg).length = (s.batchDisk cfg).length) (hds : (s.batchDisk cfg).Nodup)
    (s' : TreeSeries) :
    (findSinfoSubSequence (s.sortedFull cfg) ((s.batchFull cfg).length - 1)).foldl
        (writeRun (s.sortedFull cfg) (sortBySlabId (s.batchDisk cfg))) s' =
      s'.writePairs (s.batchWritten cfg) := by
  obtain ⟨hms, hds', hlen'⟩ := sorted_batch hne hlen
  rw [← length_sortBySlabId (s.batchFull cfg),
    foldl_writeRun (sortBySlabId_sorted hds) hds' _ (by
      rw [← hlen']
      exact isRun_findSinfoSubSequence),
    flatMap_findSinfoSubSequence hms, map_pairAt_range hlen' (numWritten_le _)]
  rfl

/-! ## The state after a batch -/

theorem copyPairs_eq (s : TreeSeries) (pairs : List (ℕ × ℕ)) :
    s.copyPairs pairs = { s with dslab := (s.copyPairs pairs).dslab } := by
  induction pairs generalizing s with
  | nil => rfl
  | cons p pairs ih => exact ih (s.optWriteToSSD p.1 p.2 1)

theorem linkPairs_eq (s : TreeSeries) (pairs : List (ℕ × ℕ)) :
    s.linkPairs pairs =
      { s with
        dstable := (s.linkPairs pairs).dstable
        memEvictSinfoq := s.memEvictSinfoq ++ pairs
        usedDsinfoq := s.usedDsinfoq ++ pairs.map Prod.snd } := by
  induction pairs generalizing s with
  | nil => simp [linkPairs]
  | cons p pairs ih =>
    have h := ih (s.linkPair p.1 p.2)
    simp only [linkPair, append_assoc, singleton_append] at h
    exact h

theorem writePairs_eq (s : TreeSeries) (pairs : List (ℕ × ℕ)) :
    s.writePairs pairs =
      { s with
        dstable := (s.writePairs pairs).dstable
        dslab := (s.writePairs pairs).dslab
        memEvictSinfoq := s.memEvictSinfoq ++ pairs
        usedDsinfoq := s.usedDsinfoq ++ pairs.map Prod.snd } := by
  have h := linkPairs_eq (s.copyPairs pairs) pairs
  rw [copyPairs_eq s pairs] at h
  unfold writePairs
  rw [copyPairs_eq s pairs, h]

theorem dslab_optWriteToSSD_one (s : TreeSeries) (m d : ℕ) :
    (s.optWriteToSSD m d 1).dslab = update s.dslab d (s.mslab m) := by
  funext i
  by_cases hi : i = d
  · rw [hi, update_self]
    simp [optWriteToSSD]
  · rw [update_of_ne hi, optWriteToSSD]
    simp only
    rw [if_neg (by omega)]

theorem dslab_copyPairs (s : TreeSeries) (pairs : List (ℕ × ℕ)) :
    (s.copyPairs pairs).dslab =
      Updates.apply s.dslab (pairs.map fun p => (p.2, s.mslab p.1)) := by
  induction pairs generalizing s with
  | nil => rfl
  | cons p pairs ih =>
    rw [map_cons, Updates.apply_cons, ← dslab_optWriteToSSD_one]
    exact ih (s.optWriteToSSD p.1 p.2 1)

theorem map_fst_writes (pairs : List (ℕ × ℕ)) (mslab : ℕ → Slab) :
    (pairs.map fun p => (p.2, mslab p.1)).map Prod.fst = pairs.map Prod.snd := by
  rw [map_map]
  rfl

theorem dslab_copyPairs_of_notMem (hd : d ∉ pairs.map Prod.snd) :
    (s.copyPairs pairs).dslab d = s.dslab d := by
  rw [dslab_copyPairs]
  exact Updates.apply_of_notMem (by rwa [map_fst_writes])

theorem dslab_copyPairs_of_mem (hnd : (pairs.map Prod.snd).Nodup) (h : (m, d) ∈ pairs) :
    (s.copyPairs pairs).dslab d = s.mslab m := by
  rw [dslab_copyPairs]
  exact Updates.apply_of_mem (by rwa [map_fst_writes]) (mem_map.2 ⟨(m, d), h, rfl⟩)

/-- The disk table after `CopyInfo` of the pairs. -/
def describePairs (dstable mstable : ℕ → SlabInfo) (pairs : List (ℕ × ℕ)) : ℕ → SlabInfo :=
  pairs.foldl
    (fun dstable p => update dstable p.2 ((dstable p.2).copyInfo (mstable p.1))) dstable

theorem describePairs_append (dstable mstable : ℕ → SlabInfo) (pairs pairs' : List (ℕ × ℕ)) :
    describePairs dstable mstable (pairs ++ pairs') =
      describePairs (describePairs dstable mstable pairs) mstable pairs' :=
  foldl_append

theorem describePairs_of_notMem {dstable mstable : ℕ → SlabInfo} (hd : d ∉ pairs.map Prod.snd) :
    describePairs dstable mstable pairs d = dstable d := by
  induction pairs generalizing dstable with
  | nil => rfl
  | cons p pairs ih =>
    rw [map_cons, mem_cons, not_or] at hd
    exact (ih hd.2).trans (update_of_ne hd.1 _ _)

theorem describePairs_of_mem {dstable mstable : ℕ → SlabInfo} (hnd : (pairs.map Prod.snd).Nodup)
    (h : (m, d) ∈ pairs) :
    describePairs dstable mstable pairs d = (dstable d).copyInfo (mstable m) := by
  induction pairs generalizing dstable with
  | nil => cases h
  | cons p pairs ih =>
    rw [map_cons, nodup_cons] at hnd
    rcases mem_cons.1 h with rfl | h
    · exact (describePairs_of_notMem hnd.1).trans (update_self _ _ _)
    · refine (ih hnd.2 h).trans ?_
      have hne : d ≠ p.2 := by
        rintro rfl
        exact hnd.1 (mem_map.2 ⟨_, h, rfl⟩)
      simp only [update_of_ne hne]

theorem dstable_linkPairs (s : TreeSeries) (pairs : List (ℕ × ℕ)) :
    (s.linkPairs pairs).dstable = describePairs s.dstable s.mstable pairs := by
  induction pairs generalizing s with
  | nil => rfl
  | cons p pairs ih => exact ih (s.linkPair p.1 p.2)

theorem writePairs_of_notMem (hd : d ∉ pairs.map Prod.snd) :
    (s.writePairs pairs).dstable d = s.dstable d ∧
      (s.writePairs pairs).dslab d = s.dslab d := by
  constructor
  · rw [writePairs, dstable_linkPairs, describePairs_of_notMem hd, copyPairs_eq]
  · rw [writePairs, linkPairs_eq]
    exact dslab_copyPairs_of_notMem hd

theorem writePairs_of_mem (hnd : (pairs.map Prod.snd).Nodup) (h : (m, d) ∈ pairs) :
    (s.writePairs pairs).dstable d = (s.dstable d).copyInfo (s.mstable m) ∧
      (s.writePairs pairs).dslab d = s.mslab m := by
  constructor
  · rw [writePairs, dstable_linkPairs, describePairs_of_mem hnd h, copyPairs_eq]
  · rw [writePairs, linkPairs_eq]
    exact dslab_copyPairs_of_mem hnd h

theorem foldl_evictDisk_eq (s : TreeSeries) (ds : List ℕ) :
    ds.foldl evictDisk s =
      { s with
        massTree := (ds.foldl evictDisk s).massTree
        dstable := (ds.foldl evictDisk s).dstable } := by
  induction ds generalizing s with
  | nil => rfl
  | cons d ds ih => exact ih (s.evictDisk d)

theorem dstable_foldl_evictDisk_of_notMem (hd : d ∉ ds) :
    (ds.foldl evictDisk s).dstable d = s.dstable d := by
  induction ds generalizing s with
  | nil => rfl
  | cons e ds ih =>
    rw [mem_cons, not_or] at hd
    exact (ih hd.2).trans (update_of_ne hd.1 _ _)

theorem dstable_foldl_evictDisk_of_mem (hnd : ds.Nodup) (hd : d ∈ ds) :
    (ds.foldl evictDisk s).dstable d = (s.dstable d).freeSlab := by
  induction ds generalizing s with
  | nil => cases hd
  | cons e ds ih =>
    rw [nodup_cons] at hnd
    rcases mem_cons.1 hd with rfl | htail
    · exact (dstable_foldl_evictDisk_of_notMem hnd.1).trans (update_self _ _ _)
    · refine (ih hnd.2 htail).trans ?_
      have hne : d ≠ e := by
        rintro rfl
        exact hnd.1 htail
      simp only [evictDisk, update_of_ne hne]

def batchPrepared (cfg : Setting) (s : TreeSeries) : TreeSeries :=
  (s.batchEvicted cfg).foldl evictDisk (s.popBatch cfg)

theorem batchPrepared_eq (cfg : Setting) (s : TreeSeries) :
    s.batchPrepared cfg =
      { s.popBatch cfg with
        massTree := (s.batchPrepared cfg).massTree
        dstable := (s.batchPrepared cfg).dstable } :=
  foldl_evictDisk_eq _ _

theorem writeBatch_eq (hne : s.batchFull cfg ≠ [])
    (hlen : (s.batchFull cfg).length = (s.batchDisk cfg).length) (hds : (s.batchDisk cfg).Nodup) :
    s.writeBatch cfg =
      { s with
        massTree := (s.batchPrepared cfg).massTree
        dstable := ((s.batchPrepared cfg).writePairs (s.batchWritten cfg)).dstable
        dslab := ((s.batchPrepared cfg).writePairs (s.batchWritten cfg)).dslab
        fullMsinfoq := s.fullMsinfoq.drop cfg.writeBatchSize
        memEvictSinfoq := s.memEvictSinfoq ++ s.batchWritten cfg
        freeDsinfoq := s.freeDsinfoq.drop (s.batchFree cfg)
        usedDsinfoq := s.usedDsinfoq ++ (s.batchWritten cfg).map Prod.snd
        diskEvictSinfoq :=
          s.diskEvictSinfoq.drop ((s.batchFull cfg).length - s.batchFree cfg)
        nfullMsinfoq := s.nfullMsinfoq - BitVec.ofNat 32 (s.batchFull cfg).length
        nMemEvictSinfo := s.nMemEvictSinfo + BitVec.ofNat 32 (s.batchFull cfg).length
        nfreeDsinfoq := s.nfreeDsinfoq - BitVec.ofNat 32 (s.batchFree cfg)
        nusedDsinfoq := s.nusedDsinfoq + BitVec.ofNat 32 (s.batchFull cfg).length
        nDiskEvictSinfo := s.nDiskEvictSinfo -
          BitVec.ofNat 32 ((s.batchFull cfg).length - s.batchFree cfg) } := by
  simp only [writeBatch, foldl_writeRun_batch hne hlen hds]
  rw [← batchPrepared, writePairs_eq, batchPrepared_eq]
  rfl

section

variable (hlen : (s.batchFull cfg).length = (s.batchDisk cfg).length)
include hlen

theorem map_fst_batchWritten :
    (s.batchWritten cfg).map Prod.fst = (s.sortedFull cfg).take
      (numWritten (s.sortedFull cfg)) := by
  rw [batchWritten, map_take, map_fst_zip (by simp [hlen])]

theorem map_snd_batchWritten :
    (s.batchWritten cfg).map Prod.snd = (sortBySlabId (s.batchDisk cfg)).take
      (numWritten (s.sortedFull cfg)) := by
  rw [batchWritten, map_take, map_snd_zip (by simp [hlen])]

theorem nodup_map_snd_batchWritten
    (hds : (s.batchDisk cfg).Nodup) : ((s.batchWritten cfg).map Prod.snd).Nodup := by
  rw [map_snd_batchWritten hlen]
  exact ((sortBySlabId_perm _).nodup_iff.2 hds).sublist (take_sublist _ _)

end

section

variable {cfg : Setting} {s : TreeSeries} (hne : s.batchFull cfg ≠ [])
  (hlen : (s.batchFull cfg).length = (s.batchDisk cfg).length) (hds : (s.batchDisk cfg).Nodup)

include hne hlen hds

theorem writeBatch_of_mem {m d : ℕ} (hw : (m, d) ∈ s.batchWritten cfg) :
    ((s.writeBatch cfg).dstable d).cid = (s.mstable m).cid ∧
      ((s.writeBatch cfg).dstable d).slots = (s.mstable m).slots ∧
      ((s.writeBatch cfg).dstable d).nalloc = (s.mstable m).nalloc ∧
      (s.writeBatch cfg).dslab d = s.mslab m := by
  rw [writeBatch_eq hne hlen hds]
  obtain ⟨htable, hslab⟩ := writePairs_of_mem (s := s.batchPrepared cfg)
    (nodup_map_snd_batchWritten hlen hds) hw
  simp only [htable, hslab]
  rw [batchPrepared_eq]
  exact ⟨rfl, rfl, rfl, rfl⟩

theorem dslab_writeBatch_of_notMem {d : ℕ} (hd : d ∉ s.batchDisk cfg) :
    (s.writeBatch cfg).dslab d = s.dslab d := by
  have hd' : d ∉ (s.batchWritten cfg).map Prod.snd := by
    rw [map_snd_batchWritten hlen]
    exact fun hmem => hd ((sortBySlabId_perm _).mem_iff.1 (mem_of_mem_take hmem))
  rw [writeBatch_eq hne hlen hds]
  simp only [(writePairs_of_notMem (s := s.batchPrepared cfg) hd').2]
  rw [batchPrepared_eq]
  rfl

end

theorem optBatchWriteLazyFlush_cases {b : Bool} (h : s.optBatchWriteLazyFlush cfg = .ok (b, s')) :
    (s.skipsBatch cfg = true ∧ b = false ∧ s' = s) ∨
    (s.skipsBatch cfg = false ∧ s.lacksDisk cfg = true ∧ b = false ∧ s' = s.pushBack cfg) ∨
    (s.skipsBatch cfg = false ∧ s.lacksDisk cfg = false ∧ b = true ∧ s.batchFull cfg ≠ [] ∧
      (s.batchFull cfg).length = (s.batchDisk cfg).length ∧ s' = s.writeBatch cfg) := by
  unfold optBatchWriteLazyFlush at h
  cases hskip : s.skipsBatch cfg with
  | true =>
    rw [hskip, if_pos rfl] at h
    cases h
    exact Or.inl ⟨rfl, rfl, rfl⟩
  | false =>
    rw [hskip, if_neg Bool.false_ne_true] at h
    by_cases hsize : cfg.writeBatchSize = 0
    · rw [if_pos hsize] at h
      cases h
    rw [if_neg hsize] at h
    cases hlack : s.lacksDisk cfg with
    | true =>
      rw [hlack, if_pos rfl] at h
      cases h
      exact Or.inr (Or.inl ⟨rfl, rfl, rfl, rfl⟩)
    | false =>
      rw [hlack, if_neg Bool.false_ne_true] at h
      split_ifs at h with hunset
      rw [not_or, Nat.not_lt, Nat.not_lt] at hunset
      cases h
      refine Or.inr (Or.inr ⟨rfl, rfl, rfl, ?_, ?_, rfl⟩)
      · have hfull : s.fullMsinfoq ≠ [] := by
          intro hnil
          simp [skipsBatch, hnil] at hskip
        simp [batchFull, hfull, hsize]
      · have hmin : s.batchFree cfg ≤ (s.batchFull cfg).length := Nat.min_le_left _ _
        simp only [batchDisk, batchEvicted, length_append, length_take]
        omega

theorem migrateReadLazyFlush_cases {res : Option (List (ℕ × Slab))}
    (h : s.migrateReadLazyFlush cfg = .ok (res, s')) :
    (res = none ∧ s' = s) ∨
    (cfg.nbufSlab ≠ 0 ∧ cfg.nbufSlab ≤ s.usedDsinfoq.length ∧
      res = some ((s.usedDsinfoq.take cfg.nbufSlab).zip
        (s.diskRead (s.usedDsinfoq.take cfg.nbufSlab))) ∧
      s' = { s with
        usedDsinfoq := s.usedDsinfoq.drop cfg.nbufSlab
        nusedDsinfoq := s.nusedDsinfoq - BitVec.ofNat 32 cfg.nbufSlab
        diskEvictSinfoq := s.diskEvictSinfoq ++ s.usedDsinfoq.take cfg.nbufSlab
        nDiskEvictSinfo := s.nDiskEvictSinfo + BitVec.ofNat 32 cfg.nbufSlab }) := by
  unfold migrateReadLazyFlush at h
  split_ifs at h with hskip hbuf
  · cases h
    exact Or.inl ⟨rfl, rfl⟩
  · rw [not_or, Nat.not_lt, Nat.not_lt] at hskip
    have hlen : (s.usedDsinfoq.take cfg.nbufSlab).length = cfg.nbufSlab := by
      rw [length_take, Nat.min_eq_left hskip.2]
    simp only [hlen] at h
    cases h
    exact Or.inr ⟨hbuf, hskip.2, rfl, rfl⟩

def migrated (cfg : Setting) (s : TreeSeries) : List ℕ := s.usedDsinfoq.take cfg.nbufSlab

/-- The first two returns of `MigrateReadLazyFlush`. -/
def skipsMigration (cfg : Setting) (s : TreeSeries) : Bool :=
  decide (s.nusedDsinfoq.toNat < cfg.migrateBatchSize ∨ s.usedDsinfoq.length < cfg.nbufSlab)

theorem length_diskRead (s : TreeSeries) (used : List ℕ) :
    (s.diskRead used).length = used.length := by
  unfold diskRead
  split <;> simp

theorem migrateReadLazyFlush_eq_ok {res : Option (List (ℕ × Slab))}
    (h : s.migrateReadLazyFlush cfg = .ok (res, s')) :
    (s.skipsMigration cfg = true ∧ res = none ∧ s' = s) ∨
    (s.skipsMigration cfg = false ∧
      res = some ((s.migrated cfg).zip (s.diskRead (s.migrated cfg)))) := by
  cases hskip : s.skipsMigration cfg with
  | true =>
    rw [migrateReadLazyFlush, if_pos (of_decide_eq_true hskip)] at h
    cases h
    exact Or.inl ⟨rfl, rfl, rfl⟩
  | false =>
    rw [migrateReadLazyFlush, if_neg (of_decide_eq_false hskip)] at h
    split_ifs at h
    cases h
    exact Or.inr ⟨rfl, rfl⟩

theorem diskRead_eq_iff (s : TreeSeries) (used : List ℕ) :
    (∀ dslab, ∀ p ∈ used.zip (diskRead { s with dslab := dslab } used), p.2 = dslab p.1) ↔
      (isSeq used = true → ∀ i < used.length, used.getD i 0 = used.headD 0 + i) := by
  by_cases hseq : isSeq used = true
  · simp only [diskRead, if_pos hseq]
    constructor
    · intro h _ i hi
      have hmem : (used.getD i 0, fun _ : ℕ => (⟨used.headD 0 + i, []⟩ : Item)) ∈
          used.zip ((List.range used.length).map fun i _ => ⟨used.headD 0 + i, []⟩) := by
        rw [mem_iff_getElem?]
        exact ⟨i, by simp [hi]⟩
      have hslab := h (fun d _ => ⟨d, []⟩) _ hmem
      exact (congrArg Item.timestamp (congrFun hslab 0)).symm
    · intro h dslab p hp
      obtain ⟨i, hi⟩ := mem_iff_getElem?.1 hp
      rw [getElem?_zip_eq_some, getElem?_map] at hi
      obtain ⟨hfst, hsnd⟩ := hi
      have hlt := (List.getElem?_eq_some_iff.1 hfst).1
      rw [getElem?_range hlt, Option.map_some, Option.some.injEq] at hsnd
      rw [← hsnd, ← h hseq i hlt, getD_eq_getElem?_getD, hfst, Option.getD_some]
  · refine iff_of_true (fun dslab p hp => ?_) fun h => absurd h hseq
    simp only [diskRead, if_neg hseq] at hp
    obtain ⟨i, hi⟩ := mem_iff_getElem?.1 hp
    rw [getElem?_zip_eq_some, getElem?_map] at hi
    obtain ⟨hfst, hsnd⟩ := hi
    rw [hfst, Option.map_some, Option.some.injEq] at hsnd
    exact hsnd.symm

end TreeSeries

end PromTCS
