import PromTCS.TreeSeries.Batch

/-!
# The write tasks of a batch

`OptBatchWriteLazyFlush` does not write the slabs itself: it queues calls of `OptWriteToSSD`
for the threads of a pool and waits for them. A run of memory slabs whose disk slabs are a
run too is one task, otherwise every slab is one. Here the tasks are listed, and the disk is
shown to be the same in whatever order they complete.
-/

namespace PromTCS

open List

namespace TreeSeries

/-- A queued call of `OptWriteToSSD`. -/
structure WriteTask where
  msid : ℕ
  dsid : ℕ
  slabNum : ℕ

def WriteTask.pairs (task : WriteTask) : List (ℕ × ℕ) :=
  (List.range task.slabNum).map fun i => (task.msid + i, task.dsid + i)

def complete (s : TreeSeries) (tasks : List WriteTask) : TreeSeries :=
  tasks.foldl (fun s task => s.optWriteToSSD task.msid task.dsid task.slabNum) s

def runTasks (ms ds : List ℕ) (run : ℕ × ℕ) : List WriteTask :=
  if run.2 - run.1 = ds.getD run.2 0 - ds.getD run.1 0 then
    [⟨ms.getD run.1 0, ds.getD run.1 0, run.2 - run.1 + 1⟩]
  else (runIndices run).map fun j => ⟨ms.getD j 0, ds.getD j 0, 1⟩

variable (cfg : Setting) (s : TreeSeries)

def batchTasks : List WriteTask :=
  let ms := sortBySlabId (s.batchFull cfg)
  let ds := sortBySlabId (s.batchDisk cfg)
  (findSinfoSubSequence ms ((s.batchFull cfg).length - 1)).flatMap (runTasks ms ds)

theorem complete_eq_copyPairs (s : TreeSeries) (tasks : List WriteTask) :
    s.complete tasks = s.copyPairs (tasks.flatMap WriteTask.pairs) := by
  induction tasks generalizing s with
  | nil => rfl
  | cons task tasks ih =>
    rw [flatMap_cons, copyPairs_append, WriteTask.pairs, ← optWriteToSSD_eq_copyPairs]
    exact ih (s.optWriteToSSD task.msid task.dsid task.slabNum)

theorem dslab_complete_perm (s : TreeSeries) {tasks tasks' : List WriteTask}
    (hnd : ((tasks.flatMap WriteTask.pairs).map Prod.snd).Nodup) (h : tasks.Perm tasks') :
    (s.complete tasks').dslab = (s.complete tasks).dslab := by
  rw [complete_eq_copyPairs, complete_eq_copyPairs, dslab_copyPairs, dslab_copyPairs]
  exact (Updates.apply_perm (by rwa [map_fst_writes]) ((h.flatMap_right _).map _)).symm

theorem flatMap_pairs_runTasks {ms ds : List ℕ} (hds : ds.Pairwise (· < ·)) (hne : ds ≠ [])
    {run : ℕ × ℕ} (hrun : IsRun ms (ds.length - 1) run) :
    (runTasks ms ds run).flatMap WriteTask.pairs = (runIndices run).map (pairAt ms ds) := by
  unfold runTasks
  split_ifs with hseq
  · rw [map_pairAt_runIndices hrun
      (consecutive_of_sorted hds hne hrun.le hrun.le_count hseq)]
    simp only [flatMap_cons, flatMap_nil, append_nil, WriteTask.pairs]
  · rw [flatMap_map]
    exact flatMap_pure_eq_map (pairAt ms ds) (runIndices run)

section

variable {cfg : Setting} {s : TreeSeries} (hne : s.batchFull cfg ≠ [])
  (hlen : (s.batchFull cfg).length = (s.batchDisk cfg).length) (hds : (s.batchDisk cfg).Nodup)

include hne hlen hds

theorem flatMap_pairs_batchTasks :
    (s.batchTasks cfg).flatMap WriteTask.pairs = s.batchWritten cfg := by
  obtain ⟨hms, hds', hlen'⟩ := sorted_batch hne hlen
  have hruns : ∀ run ∈ findSinfoSubSequence (s.sortedFull cfg)
      ((s.batchFull cfg).length - 1),
      (runTasks (s.sortedFull cfg) (sortBySlabId (s.batchDisk cfg)) run).flatMap
        WriteTask.pairs = (runIndices run).map
          (pairAt (s.sortedFull cfg) (sortBySlabId (s.batchDisk cfg))) := by
    intro run hrun
    refine flatMap_pairs_runTasks (sortBySlabId_sorted hds) hds' ?_
    rw [length_sortBySlabId, ← hlen]
    exact isRun_findSinfoSubSequence run hrun
  rw [batchTasks, flatMap_assoc, flatMap_congr hruns, ← map_flatMap,
    ← length_sortBySlabId (s.batchFull cfg), flatMap_findSinfoSubSequence hms,
    map_pairAt_range hlen' (numWritten_le _)]
  rfl

theorem dslab_complete_batchTasks {tasks : List WriteTask} (h : tasks.Perm (s.batchTasks cfg)) :
    (s.complete tasks).dslab = (s.writeBatch cfg).dslab := by
  have hpairs := flatMap_pairs_batchTasks hne hlen hds
  have hnodup : (((s.batchTasks cfg).flatMap WriteTask.pairs).map Prod.snd).Nodup := by
    rw [hpairs]
    exact nodup_map_snd_batchWritten hlen hds
  rw [dslab_complete_perm s hnodup h.symm, complete_eq_copyPairs, hpairs,
    writeBatch_eq hne hlen hds]
  simp only
  rw [writePairs, linkPairs_eq, dslab_copyPairs, dslab_copyPairs, batchPrepared_eq]
  rfl

end

theorem perm_batchDisk :
    (s.freeDsinfoq ++ s.diskEvictSinfoq).Perm (s.batchDisk cfg ++
      (s.freeDsinfoq.drop (s.batchFree cfg) ++
        s.diskEvictSinfoq.drop ((s.batchFull cfg).length - s.batchFree cfg))) := by
  conv_lhs => rw [← take_append_drop (s.batchFree cfg) s.freeDsinfoq,
    ← take_append_drop ((s.batchFull cfg).length - s.batchFree cfg) s.diskEvictSinfoq]
  rw [batchDisk, batchEvicted, append_assoc, append_assoc]
  exact (perm_append_comm_assoc _ _ _).append_left _

/-- Whatever `OptBatchWriteLazyFlush` does, a disk slab paired with a memory slab holds and
describes what that slab does, and a disk slab that was not taken is not written to. It
returns if the counter of the free disk slabs is right and a batch has room for a slab. -/
theorem optBatchWriteLazyFlush_places
    (hdisk : (s.freeDsinfoq ++ s.diskEvictSinfoq).Nodup) :
    (∀ b s', s.optBatchWriteLazyFlush cfg = .ok (b, s') → ∃ pairs taken,
      s'.memEvictSinfoq = s.memEvictSinfoq ++ pairs ∧
      (s.freeDsinfoq ++ s.diskEvictSinfoq).Perm
        (taken ++ (s'.freeDsinfoq ++ s'.diskEvictSinfoq)) ∧
      (∀ m d, (m, d) ∈ pairs → s'.dslab d = s'.mslab m ∧
        (s'.dstable d).slots = (s'.mstable m).slots ∧
        (s'.dstable d).nalloc = (s'.mstable m).nalloc) ∧
      (∀ d, d ∉ taken → s'.dslab d = s.dslab d) ∧
      (b = true → ∀ tasks, tasks.Perm (s.batchTasks cfg) →
        (s.complete tasks).dslab = s'.dslab)) ∧
    (s.nfreeDsinfoq.toNat = s.freeDsinfoq.length → cfg.writeBatchSize ≠ 0 →
      ∃ b s', s.optBatchWriteLazyFlush cfg = .ok (b, s')) := by
  constructor
  · intro b s' hok
    rcases optBatchWriteLazyFlush_cases hok with ⟨-, rfl, rfl⟩ | ⟨-, -, rfl, rfl⟩ |
      ⟨-, -, hb, hne, hlen, rfl⟩
    · exact ⟨[], [], (append_nil _).symm, .refl _, nofun,
        fun _ _ => rfl, nofun⟩
    · exact ⟨[], [], (append_nil _).symm, .refl _, nofun,
        fun _ _ => rfl, nofun⟩
    · have hperm := perm_batchDisk cfg s
      have hds : (s.batchDisk cfg).Nodup := (hperm.nodup_iff.1 hdisk).of_append_left
      refine ⟨s.batchWritten cfg, s.batchDisk cfg, ?_, ?_, ?_,
        fun d hd => dslab_writeBatch_of_notMem hne hlen hds hd,
        fun _ tasks htasks => dslab_complete_batchTasks hne hlen hds htasks⟩
      · rw [writeBatch_eq hne hlen hds]
      · rw [writeBatch_eq hne hlen hds]
        exact hperm
      · intro m d hmem
        obtain ⟨-, hslots, hnalloc, hslab⟩ := writeBatch_of_mem hne hlen hds hmem
        rw [hslots, hnalloc, hslab, writeBatch_eq hne hlen hds]
        exact ⟨rfl, rfl, rfl⟩
  · intro hcount hsize
    rw [optBatchWriteLazyFlush, if_neg hsize]
    split_ifs with hskip hlack hunset
    · exact ⟨false, s, rfl⟩
    · exact ⟨false, _, rfl⟩
    · -- The counter of the free disk slabs bounds the slabs taken from their queue.
      exfalso
      have hfree : s.batchFree cfg = min (s.batchFull cfg).length s.freeDsinfoq.length := by
        rw [batchFree, hcount]
      simp only [lacksDisk, decide_eq_true_eq] at hlack
      omega
    · exact ⟨true, _, rfl⟩

def scatteredStore : TreeSeries :=
  { initStable Setting.threeSlabs (fun m _ => ⟨m, []⟩) (fun _ _ => ⟨100, []⟩) with
    freeMsinfoq := []
    fullMsinfoq := [4, 1, 3]
    freeDsinfoq := [7, 2]
    diskEvictSinfoq := [5]
    nfullMsinfoq := 3
    nfreeDsinfoq := 2
    nDiskEvictSinfo := 1 }

theorem optBatchWriteLazyFlush_places_scattered :
    ∃ s', scatteredStore.optBatchWriteLazyFlush Setting.threeSlabs = .ok (true, s') ∧
      s'.memEvictSinfoq = [(1, 2), (3, 5), (4, 7)] ∧
      s'.dslab 2 = s'.mslab 1 ∧ s'.dslab 5 = s'.mslab 3 ∧ s'.dslab 7 = s'.mslab 4 := by
  obtain ⟨hplaces, hreturns⟩ :=
    optBatchWriteLazyFlush_places Setting.threeSlabs scatteredStore (by decide)
  obtain ⟨b, s', hok⟩ := hreturns (by decide) (by decide)
  have hview : (scatteredStore.optBatchWriteLazyFlush Setting.threeSlabs).toOption.map
      (fun p => (p.1, p.2.memEvictSinfoq)) = some (true, [(1, 2), (3, 5), (4, 7)]) := by
    decide +kernel
  rw [hok] at hview
  obtain ⟨rfl, hqueue⟩ := Prod.mk.inj (Option.some.inj hview)
  obtain ⟨pairs, taken, hpairs, -, hwritten, -⟩ := hplaces _ _ hok
  rw [hqueue] at hpairs
  obtain rfl : [(1, 2), (3, 5), (4, 7)] = pairs := hpairs
  exact ⟨s', hok, hqueue, (hwritten 1 2 (by decide)).1, (hwritten 3 5 (by decide)).1,
    (hwritten 4 7 (by decide)).1⟩

end TreeSeries

end PromTCS
