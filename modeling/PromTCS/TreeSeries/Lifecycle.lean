import PromTCS.Lib.Places
import PromTCS.Lib.Run
import PromTCS.TreeSeries.Batch
import PromTCS.TreeSeries.Put

/-!
# The life of a slab

Every memory slab is in exactly one place: the free queue, the current slab of one
class, the full queue, or one pair of the evict queue. Every disk slab is free, used
or waiting to be overwritten. The counters are the sizes of these sets.

A put and a migration move slabs from place to place and keep this. A batch write
keeps it when the last slab of the sorted batch is written, `ForceFlush` when there
is nothing for it to push: the slabs it pushes stay the current slabs of their
classes.
-/

namespace PromTCS

open List Function TreeSeries

open Places

namespace TreeSeries

def slabOf (s : TreeSeries) (c : ClassId) : Option ℕ := (s.ctable c).slabId

/-- The number of places memory slab `m` is in. -/
def memCount (s : TreeSeries) (m : ℕ) : ℕ :=
  s.freeMsinfoq.count m + occupants s.slabOf m + s.fullMsinfoq.count m +
    (s.memEvictSinfoq.map Prod.fst).count m

/-- The number of places disk slab `d` is in. -/
def diskCount (s : TreeSeries) (d : ℕ) : ℕ :=
  s.freeDsinfoq.count d + s.usedDsinfoq.count d + s.diskEvictSinfoq.count d

structure Counted (s : TreeSeries) : Prop where
  nfreeMsinfoq : s.nfreeMsinfoq = BitVec.ofNat 32 s.freeMsinfoq.length
  nusedMsinfoq : s.nusedMsinfoq = BitVec.ofNat 32 (occupied s.slabOf)
  nfullMsinfoq : s.nfullMsinfoq = BitVec.ofNat 32 s.fullMsinfoq.length
  nMemEvictSinfo : s.nMemEvictSinfo = BitVec.ofNat 32 s.memEvictSinfoq.length
  nfreeDsinfoq : s.nfreeDsinfoq = BitVec.ofNat 32 s.freeDsinfoq.length
  nusedDsinfoq : s.nusedDsinfoq = BitVec.ofNat 32 s.usedDsinfoq.length
  nDiskEvictSinfo : s.nDiskEvictSinfo = BitVec.ofNat 32 s.diskEvictSinfoq.length

variable (cfg : Setting) (mslab dslab : ℕ → Slab)

theorem counted_initStable :
    (initStable cfg mslab dslab).Counted where
  nfreeMsinfoq := by simp [initStable]
  nusedMsinfoq := by simp [initStable, occupied, slabOf]
  nfullMsinfoq := rfl
  nMemEvictSinfo := rfl
  nfreeDsinfoq := by simp [initStable]
  nusedDsinfoq := rfl
  nDiskEvictSinfo := rfl

theorem memCount_initStable (m : ℕ) :
    (initStable cfg mslab dslab).memCount m = if m < cfg.nmslab then 1 else 0 := by
  simp [memCount, initStable, occupants, slabOf, count_range]

theorem diskCount_initStable (d : ℕ) :
    (initStable cfg mslab dslab).diskCount d = if d < cfg.ndslab then 1 else 0 := by
  simp [diskCount, initStable, count_range]

/-! ## ConPutKV -/

theorem ofNat_succ_sub_one (n : ℕ) : BitVec.ofNat 32 (n + 1) - 1 = BitVec.ofNat 32 n := by
  rw [BitVec.ofNat_add]
  exact BitVec.add_sub_cancel _ _

theorem slabOf_update (s : TreeSeries) (c : ClassId) (cls : SlabClass) :
    slabOf { s with ctable := update s.ctable c cls } =
      update s.slabOf c cls.slabId := by
  funext c'
  by_cases hc : c' = c
  · subst hc
    simp [slabOf]
  · simp [slabOf, hc]

variable {s s₁ s' : TreeSeries} {m : ℕ} {c : ClassId} {cfg : Setting}

section

variable (h : s.currentSlab c = some (m, s₁))
include h

theorem slabOf_currentSlab :
    s₁.slabOf = update s.slabOf c (some m) := by
  rcases currentSlab_cases h with ⟨hc, rfl⟩ | ⟨hc, rest, hfree, rfl⟩ | ⟨hc, -, d, rest, hev, rfl⟩
  · rw [← hc]
    exact (update_eq_self c s₁.slabOf).symm
  · exact slabOf_update s c _
  · exact slabOf_update s c _

theorem slabOf_currentSlab_self : s₁.slabOf c = some m := by
  rw [slabOf_currentSlab h, update_self]

theorem memCount_currentSlab (m' : ℕ) :
    s₁.memCount m' = s.memCount m' := by
  have hslab := slabOf_currentSlab h
  unfold memCount
  rcases currentSlab_cases h with ⟨-, rfl⟩ | ⟨hc, rest, hfree, rfl⟩ | ⟨hc, -, d, rest, hev, rfl⟩
  · rfl
  · rw [hslab, occupants_update (show s.slabOf c = none from hc)]
    simp only [hfree, count_cons, beq_iff_eq]
    omega
  · rw [hslab, occupants_update (show s.slabOf c = none from hc)]
    simp only [hev, map_cons, count_cons, beq_iff_eq]
    omega

theorem diskCount_currentSlab :
    s₁.diskCount = s.diskCount := by
  rcases currentSlab_cases h with ⟨-, rfl⟩ | ⟨-, -, -, rfl⟩ | ⟨-, -, -, -, -, rfl⟩ <;> rfl

end

theorem Counted.currentSlab (hs : s.Counted) (h : s.currentSlab c = some (m, s₁)) : s₁.Counted := by
  have hslab := slabOf_currentSlab h
  rcases currentSlab_cases h with ⟨-, rfl⟩ | ⟨hc, rest, hfree, rfl⟩ | ⟨hc, -, d, rest, hev, rfl⟩
  · exact hs
  · refine { hs with nfreeMsinfoq := ?_, nusedMsinfoq := ?_ }
    · simp only [hs.nfreeMsinfoq, hfree, length_cons]
      exact ofNat_succ_sub_one _
    · rw [hslab, occupied_update (show s.slabOf c = none from hc), BitVec.ofNat_add,
        ← hs.nusedMsinfoq]
      rfl
  · refine { hs with nusedMsinfoq := ?_, nMemEvictSinfo := ?_ }
    · rw [hslab, occupied_update (show s.slabOf c = none from hc), BitVec.ofNat_add,
        ← hs.nusedMsinfoq]
      rfl
    · simp only [hs.nMemEvictSinfo, hev, length_cons]
      exact ofNat_succ_sub_one _

section AfterPut

variable {s : TreeSeries} {call : PutCall} {m : ℕ} (slots : List Slot) (tree : MassTree)
  (txn : ℕ → ℤ)

theorem slabOf_afterPut (s : TreeSeries) (call : PutCall) (m : ℕ) :
    (s.afterPut call m slots tree txn).slabOf =
      update s.slabOf call.cid
        (if (s.mstable m).nalloc + 1 = maxAllocItem then none
          else s.slabOf call.cid) :=
  slabOf_update s _ _

theorem slabOf_of_afterPut {c : ClassId} {m' : ℕ}
    (hc : (s.afterPut call m slots tree txn).slabOf c = some m') : s.slabOf c = some m' := by
  rw [slabOf_afterPut] at hc
  by_cases hcc : c = call.cid
  · subst hcc
    rw [update_self] at hc
    split_ifs at hc
    exact hc
  · rwa [update_of_ne hcc] at hc

theorem memCount_afterPut (hc : s.slabOf call.cid = some m)
    (m' : ℕ) : (s.afterPut call m slots tree txn).memCount m' = s.memCount m' := by
  have hslab := slabOf_afterPut slots tree txn s call m
  unfold memCount
  rw [hslab]
  by_cases hfull : (s.mstable m).nalloc + 1 = maxAllocItem
  · rw [occupants_release hc m']
    simp only [afterPut, hfull, if_true, count_append, count_singleton, beq_iff_eq]
    omega
  · simp only [hfull, if_false, update_eq_self]
    simp [afterPut, hfull]

theorem Counted.afterPut (hs : s.Counted)
    (hc : s.slabOf call.cid = some m) :
    (s.afterPut call m slots tree txn).Counted := by
  have hslab := slabOf_afterPut slots tree txn s call m
  by_cases hfull : (s.mstable m).nalloc + 1 = maxAllocItem
  · refine { hs with nusedMsinfoq := ?_, nfullMsinfoq := ?_ }
    · rw [hslab, if_pos hfull]
      simp only [TreeSeries.afterPut, hfull, if_true, hs.nusedMsinfoq, occupied_release hc]
      exact ofNat_succ_sub_one _
    · simp only [TreeSeries.afterPut, hfull, if_true, hs.nfullMsinfoq, length_append,
        length_singleton, BitVec.ofNat_add]
      rfl
  · refine { hs with nusedMsinfoq := ?_, nfullMsinfoq := ?_ }
    · rw [hslab, if_neg hfull, update_eq_self]
      simp only [TreeSeries.afterPut, hfull, if_false, hs.nusedMsinfoq]
    · simp only [TreeSeries.afterPut, hfull, if_false, hs.nfullMsinfoq]

end AfterPut

theorem conPutKV_counts {call : PutCall} {sid : Option ℕ} (h : s.conPutKV cfg call = .ok (sid, s')) :
    (∀ m, s'.memCount m = s.memCount m) ∧ (∀ d, s'.diskCount d = s.diskCount d) ∧
      (s.Counted → s'.Counted) := by
  rcases conPutKV_cases h with ⟨-, rfl⟩ | ⟨m, s₁, -, hcur, hput⟩
  · exact ⟨fun _ => rfl, fun _ => rfl, id⟩
  · obtain ⟨-, -, slots, tree, txn, -, rfl⟩ := putInSlab_eq_ok hput
    have hc := slabOf_currentSlab_self hcur
    refine ⟨fun m' => ?_, fun d => ?_, fun hs => ?_⟩
    · rw [memCount_afterPut slots tree txn hc, memCount_currentSlab hcur]
    · exact congrFun (diskCount_currentSlab hcur) d
    · exact (hs.currentSlab hcur).afterPut slots tree txn hc

/-! ## OptBatchWriteLazyFlush -/

structure Owned (cfg : Setting) (s : TreeSeries) : Prop where
  memCount_le : ∀ m, s.memCount m ≤ if m < cfg.nmslab then 1 else 0
  diskCount_le : ∀ d, s.diskCount d ≤ if d < cfg.ndslab then 1 else 0

theorem Owned.diskCount_le_one (hs : s.Owned cfg) (d : ℕ) : s.diskCount d ≤ 1 :=
  (hs.diskCount_le d).trans (by split <;> omega)

theorem Owned.memCount_le_one (hs : s.Owned cfg) (m : ℕ) : s.memCount m ≤ 1 :=
  (hs.memCount_le m).trans (by split <;> omega)

theorem Owned.lt_of_memCount (h : s.Owned cfg) (hm : 0 < s.memCount m) : m < cfg.nmslab := by
  by_contra hout
  have hle := h.memCount_le m
  rw [if_neg hout] at hle
  omega

theorem Owned.lt_of_diskCount (h : s.Owned cfg) {d : ℕ} (hd : 0 < s.diskCount d) :
    d < cfg.ndslab := by
  by_contra hout
  have hle := h.diskCount_le d
  rw [if_neg hout] at hle
  omega

theorem Owned.of_counts (h : s.Owned cfg) (hmem : ∀ m, s'.memCount m = s.memCount m)
    (hdisk : ∀ d, s'.diskCount d = s.diskCount d) : s'.Owned cfg :=
  ⟨fun m => (hmem m).trans_le (h.memCount_le m), fun d => (hdisk d).trans_le (h.diskCount_le d)⟩

theorem Owned.nodup_batchDisk (hs : s.Owned cfg) : (s.batchDisk cfg).Nodup := by
  rw [nodup_iff_count_le_one]
  intro d
  have hone := hs.diskCount_le_one d
  have hfree := (take_sublist (s.batchFree cfg) s.freeDsinfoq).count_le d
  have hevict := (take_sublist ((s.batchFull cfg).length - s.batchFree cfg)
    s.diskEvictSinfoq).count_le d
  unfold diskCount at hone
  rw [batchDisk, batchEvicted, count_append]
  omega

theorem count_take_add_count_drop (l : List ℕ) (n a : ℕ) :
    (l.take n).count a + (l.drop n).count a = l.count a := by
  rw [← count_append, take_append_drop]

theorem ofNat_sub_ofNat {a b n : ℕ} (h : a + b = n) :
    BitVec.ofNat 32 n - BitVec.ofNat 32 a = BitVec.ofNat 32 b := by
  rw [← h, Nat.add_comm, BitVec.ofNat_add]
  exact BitVec.add_sub_cancel _ _

theorem batchFree_le (hlen : (s.batchFull cfg).length = (s.batchDisk cfg).length) :
    s.batchFree cfg ≤ s.freeDsinfoq.length ∧
      (s.batchFull cfg).length - s.batchFree cfg ≤ s.diskEvictSinfoq.length := by
  have hmin : s.batchFree cfg ≤ (s.batchFull cfg).length := Nat.min_le_left _ _
  simp only [batchDisk, batchEvicted, length_append, length_take] at hlen
  omega

section WriteBatch

variable {cfg : Setting} {s : TreeSeries} (hs : s.Owned cfg) (hne : s.batchFull cfg ≠ [])
  (hlen : (s.batchFull cfg).length = (s.batchDisk cfg).length)

include hs hne hlen

theorem memCount_writeBatch (m : ℕ) :
    (s.writeBatch cfg).memCount m + ((s.sortedFull cfg).drop
      (numWritten (s.sortedFull cfg))).count m = s.memCount m := by
  rw [writeBatch_eq hne hlen hs.nodup_batchDisk]
  have hsort := count_take_add_count_drop (s.sortedFull cfg)
    (numWritten (s.sortedFull cfg)) m
  rw [(sortBySlabId_perm _).count_eq] at hsort
  have hfull := count_take_add_count_drop s.fullMsinfoq cfg.writeBatchSize m
  rw [← batchFull] at hfull
  simp only [memCount, map_append, count_append, map_fst_batchWritten hlen]
  change s.freeMsinfoq.count m + occupants s.slabOf m + _ + _ + _ = _
  omega

theorem diskCount_writeBatch (d : ℕ) :
    (s.writeBatch cfg).diskCount d + ((sortBySlabId (s.batchDisk cfg)).drop
      (numWritten (s.sortedFull cfg))).count d = s.diskCount d := by
  rw [writeBatch_eq hne hlen hs.nodup_batchDisk]
  have hsort := count_take_add_count_drop (sortBySlabId (s.batchDisk cfg))
    (numWritten (s.sortedFull cfg)) d
  rw [(sortBySlabId_perm _).count_eq] at hsort
  have hfree := count_take_add_count_drop s.freeDsinfoq (s.batchFree cfg) d
  have hevict := count_take_add_count_drop s.diskEvictSinfoq
    ((s.batchFull cfg).length - s.batchFree cfg) d
  have hdisk : (s.batchDisk cfg).count d = (s.freeDsinfoq.take (s.batchFree cfg)).count d +
      (s.diskEvictSinfoq.take ((s.batchFull cfg).length - s.batchFree cfg)).count d := by
    rw [batchDisk, batchEvicted, count_append]
  simp only [diskCount, count_append, map_snd_batchWritten hlen]
  omega

theorem Owned.writeBatch : (s.writeBatch cfg).Owned cfg where
  memCount_le m := by
    have h := memCount_writeBatch hs hne hlen m
    exact Nat.le_trans (by omega) (hs.memCount_le m)
  diskCount_le d := by
    have h := diskCount_writeBatch hs hne hlen d
    exact Nat.le_trans (by omega) (hs.diskCount_le d)

theorem Counted.writeBatch (hc : s.Counted)
    (hlast : keepsLast (s.sortedFull cfg) = true) :
    (s.writeBatch cfg).Counted := by
  have hwritten : (s.batchWritten cfg).length = (s.batchFull cfg).length := by
    simp [batchWritten, numWritten, hlast, hlen]
  have hfull : (s.batchFull cfg).length + (s.fullMsinfoq.drop cfg.writeBatchSize).length =
      s.fullMsinfoq.length := by
    rw [batchFull, ← length_append, take_append_drop]
  obtain ⟨hfree, hevict⟩ := batchFree_le hlen
  have hfree' : s.batchFree cfg + (s.freeDsinfoq.drop (s.batchFree cfg)).length =
      s.freeDsinfoq.length := by
    rw [length_drop, Nat.add_sub_cancel' hfree]
  have hevict' : (s.batchFull cfg).length - s.batchFree cfg +
      (s.diskEvictSinfoq.drop ((s.batchFull cfg).length - s.batchFree cfg)).length =
      s.diskEvictSinfoq.length := by
    rw [length_drop, Nat.add_sub_cancel' hevict]
  rw [writeBatch_eq hne hlen hs.nodup_batchDisk]
  refine { hc with nfullMsinfoq := ?_, nMemEvictSinfo := ?_, nfreeDsinfoq := ?_,
                   nusedDsinfoq := ?_, nDiskEvictSinfo := ?_ }
  · exact hc.nfullMsinfoq ▸ ofNat_sub_ofNat hfull
  · rw [length_append, hwritten, BitVec.ofNat_add, ← hc.nMemEvictSinfo]
  · exact hc.nfreeDsinfoq ▸ ofNat_sub_ofNat hfree'
  · rw [length_append, length_map, hwritten, BitVec.ofNat_add, ← hc.nusedDsinfoq]
  · exact hc.nDiskEvictSinfo ▸ ofNat_sub_ofNat hevict'

end WriteBatch

theorem memCount_pushBack (cfg : Setting) (s : TreeSeries) (m : ℕ) :
    (s.pushBack cfg).memCount m = s.memCount m := by
  have hfull := count_take_add_count_drop s.fullMsinfoq cfg.writeBatchSize m
  rw [← batchFull] at hfull
  simp only [memCount, pushBack, count_append]
  change s.freeMsinfoq.count m + occupants s.slabOf m + _ + _ = _
  omega

theorem Counted.pushBack (hc : s.Counted) (cfg : Setting) : (s.pushBack cfg).Counted := by
  refine { hc with nfullMsinfoq := ?_ }
  have hlen : (s.fullMsinfoq.drop cfg.writeBatchSize ++ s.batchFull cfg).length =
      s.fullMsinfoq.length := by
    rw [length_append, Nat.add_comm, ← length_append, batchFull,
      take_append_drop]
  exact hlen ▸ hc.nfullMsinfoq

theorem Owned.pushBack (hs : s.Owned cfg) : (s.pushBack cfg).Owned cfg := by
  refine ⟨fun m => ?_, hs.diskCount_le⟩
  rw [memCount_pushBack]
  exact hs.memCount_le m

/-! ## MigrateReadLazyFlush and ForceFlush -/

theorem migrateReadLazyFlush_counts {res : Option (List (ℕ × Slab))}
    (h : s.migrateReadLazyFlush cfg = .ok (res, s')) :
    (∀ m, s'.memCount m = s.memCount m) ∧ (∀ d, s'.diskCount d = s.diskCount d) ∧
      (s.Counted → s'.Counted) := by
  rcases migrateReadLazyFlush_cases h with ⟨-, rfl⟩ | ⟨-, hle, -, rfl⟩
  · exact ⟨fun _ => rfl, fun _ => rfl, id⟩
  · refine ⟨fun _ => rfl, fun d => ?_, fun hc => ?_⟩
    · have husedd := count_take_add_count_drop s.usedDsinfoq cfg.nbufSlab d
      simp only [diskCount, count_append]
      omega
    · refine { hc with nusedDsinfoq := ?_, nDiskEvictSinfo := ?_ }
      · refine hc.nusedDsinfoq ▸ ofNat_sub_ofNat ?_
        rw [length_drop, Nat.add_sub_cancel' hle]
      · rw [length_append, length_take, Nat.min_eq_left hle, BitVec.ofNat_add,
          ← hc.nDiskEvictSinfo]

theorem foldl_insertMemFullQueue (s : TreeSeries) (ms : List ℕ) :
    ms.foldl insertMemFullQueue s =
      { s with
        fullMsinfoq := s.fullMsinfoq ++ ms
        nfullMsinfoq := (ms.foldl insertMemFullQueue s).nfullMsinfoq
        nusedMsinfoq := (ms.foldl insertMemFullQueue s).nusedMsinfoq } := by
  induction ms generalizing s with
  | nil => simp
  | cons m ms ih =>
    have h := ih (s.insertMemFullQueue m)
    simp only [insertMemFullQueue, append_assoc, singleton_append] at h
    exact h

theorem memCount_forceFlush (cfg : Setting) (s : TreeSeries) (m : ℕ) :
    (s.forceFlush cfg).memCount m = s.memCount m + (s.partialSlabs cfg).count m := by
  rw [forceFlush, foldl_insertMemFullQueue]
  simp only [memCount, count_append]
  change s.freeMsinfoq.count m + occupants s.slabOf m + _ + _ = _
  omega

/-! ## Runs -/

structure Lifecycle (cfg : Setting) (s : TreeSeries) : Prop where
  memCount_eq : ∀ m, s.memCount m = if m < cfg.nmslab then 1 else 0
  diskCount_eq : ∀ d, s.diskCount d = if d < cfg.ndslab then 1 else 0
  nfreeMsinfoq : s.nfreeMsinfoq.toNat = s.freeMsinfoq.length
  nusedMsinfoq : s.nusedMsinfoq.toNat = occupied s.slabOf
  nfullMsinfoq : s.nfullMsinfoq.toNat = s.fullMsinfoq.length
  nMemEvictSinfo : s.nMemEvictSinfo.toNat = s.memEvictSinfoq.length
  nfreeDsinfoq : s.nfreeDsinfoq.toNat = s.freeDsinfoq.length
  nusedDsinfoq : s.nusedDsinfoq.toNat = s.usedDsinfoq.length
  nDiskEvictSinfo : s.nDiskEvictSinfo.toNat = s.diskEvictSinfoq.length

theorem Lifecycle.owned (h : s.Lifecycle cfg) : s.Owned cfg :=
  ⟨fun m => (h.memCount_eq m).le, fun d => (h.diskCount_eq d).le⟩

theorem Lifecycle.counted (h : s.Lifecycle cfg) : s.Counted := by
  have hword : ∀ {x : BitVec 32} {n : ℕ}, x.toNat = n → x = BitVec.ofNat 32 n := by
    rintro x n rfl
    simp
  exact ⟨hword h.nfreeMsinfoq, hword h.nusedMsinfoq, hword h.nfullMsinfoq,
    hword h.nMemEvictSinfo, hword h.nfreeDsinfoq, hword h.nusedDsinfoq, hword h.nDiskEvictSinfo⟩

theorem length_le_of_count_le {l : List ℕ} {n : ℕ}
    (h : ∀ m, l.count m ≤ if m < n then 1 else 0) : l.length ≤ n := by
  have hnd : l.Nodup := nodup_iff_count_le_one.2 fun m =>
    (h m).trans (by split <;> omega)
  have hsub : l ⊆ List.range n := by
    intro m hm
    by_contra hout
    have hcount := h m
    rw [if_neg (fun hlt => hout (mem_range.2 hlt))] at hcount
    exact absurd (count_pos_iff.2 hm) (by omega)
  simpa using (subperm_of_subset hnd hsub).length_le

theorem lifecycle_of_counted (hmem : ∀ m, s.memCount m = if m < cfg.nmslab then 1 else 0)
    (hdisk : ∀ d, s.diskCount d = if d < cfg.ndslab then 1 else 0) (hc : s.Counted) :
    s.Lifecycle cfg := by
  have hm : ∀ {l : List ℕ}, (∀ m, l.count m ≤ s.memCount m) → l.length < 2 ^ 32 :=
    fun hl => Nat.lt_of_le_of_lt
      (length_le_of_count_le fun m => (hl m).trans (hmem m).le) cfg.nmslab_lt
  have hd : ∀ {l : List ℕ}, (∀ d, l.count d ≤ s.diskCount d) → l.length < 2 ^ 32 :=
    fun hl => Nat.lt_of_le_of_lt
      (length_le_of_count_le fun d => (hl d).trans (hdisk d).le) cfg.ndslab_lt
  have hocc : occupied s.slabOf < 2 ^ 32 := by
    have hle : ∀ m, occupants s.slabOf m ≤ if m < cfg.nmslab then 1 else 0 := fun m =>
      Nat.le_trans (by unfold memCount; omega) (hmem m).le
    refine Nat.lt_of_le_of_lt (occupied_le (fun m hpos => ?_) fun m => ?_) cfg.nmslab_lt
    · by_contra hout
      have h := hle m
      rw [if_neg hout] at h
      omega
    · exact (hle m).trans (by split <;> omega)
  have hevict : s.memEvictSinfoq.length < 2 ^ 32 := by
    rw [← length_map (f := Prod.fst)]
    exact hm fun m => by unfold memCount; omega
  refine ⟨hmem, hdisk, ?_, ?_, ?_, ?_, ?_, ?_, ?_⟩
  · rw [hc.nfreeMsinfoq, BitVec.toNat_ofNat,
      Nat.mod_eq_of_lt (hm fun m => by unfold memCount; omega)]
  · rw [hc.nusedMsinfoq, BitVec.toNat_ofNat, Nat.mod_eq_of_lt hocc]
  · rw [hc.nfullMsinfoq, BitVec.toNat_ofNat,
      Nat.mod_eq_of_lt (hm fun m => by unfold memCount; omega)]
  · rw [hc.nMemEvictSinfo, BitVec.toNat_ofNat, Nat.mod_eq_of_lt hevict]
  · rw [hc.nfreeDsinfoq, BitVec.toNat_ofNat,
      Nat.mod_eq_of_lt (hd fun d => by unfold diskCount; omega)]
  · rw [hc.nusedDsinfoq, BitVec.toNat_ofNat,
      Nat.mod_eq_of_lt (hd fun d => by unfold diskCount; omega)]
  · rw [hc.nDiskEvictSinfo, BitVec.toNat_ofNat,
      Nat.mod_eq_of_lt (hd fun d => by unfold diskCount; omega)]

theorem lifecycle_initStable (cfg : Setting) (mslab dslab : ℕ → Slab) :
    (initStable cfg mslab dslab).Lifecycle cfg :=
  lifecycle_of_counted (memCount_initStable cfg mslab dslab)
    (diskCount_initStable cfg mslab dslab) (counted_initStable cfg mslab dslab)

/-- The step takes none of the two branches that go wrong: a batch that is written
has its last slab in a run, and `ForceFlush` finds nothing to push. -/
def Orderly (cfg : Setting) (s : TreeSeries) : Op → Prop
  | .optBatchWriteLazyFlush => s.skipsBatch cfg = true ∨ s.lacksDisk cfg = true ∨
      keepsLast (sortBySlabId (s.batchFull cfg)) = true
  | .forceFlush => s.partialSlabs cfg = []
  | _ => True

instance (cfg : Setting) (s : TreeSeries) : (op : Op) → Decidable (s.Orderly cfg op)
  | .conPutKV _ => inferInstanceAs (Decidable True)
  | .optBatchWriteLazyFlush => inferInstanceAs (Decidable (_ ∨ _ ∨ _))
  | .migrateReadLazyFlush => inferInstanceAs (Decidable True)
  | .forceFlush => inferInstanceAs (Decidable (_ = _))

theorem map_snd_eq_ok {α : Type} {x : Except Fault (α × TreeSeries)} (h : x.map Prod.snd = .ok s') :
    ∃ a, x = .ok (a, s') := by
  cases x with
  | error e => cases h
  | ok p =>
    cases h
    exact ⟨p.1, rfl⟩

theorem Lifecycle.writeBatch_iff (h : s.Lifecycle cfg) (hne : s.batchFull cfg ≠ [])
    (hlen : (s.batchFull cfg).length = (s.batchDisk cfg).length) :
    (s.writeBatch cfg).Lifecycle cfg ↔
      keepsLast (s.sortedFull cfg) = true := by
  constructor
  · intro h'
    by_contra hlast
    have hpos := length_pos_iff.2 hne
    have hwritten : (s.batchWritten cfg).length = (s.batchFull cfg).length - 1 := by
      simp [batchWritten, numWritten, hlast, hlen]
    have hn := h'.counted.nMemEvictSinfo
    rw [writeBatch_eq hne hlen h.owned.nodup_batchDisk] at hn
    simp only [h.counted.nMemEvictSinfo, length_append, hwritten] at hn
    have hle : (s.memEvictSinfoq.map Prod.fst ++ s.batchFull cfg).length ≤ cfg.nmslab := by
      refine length_le_of_count_le fun m => Nat.le_trans ?_ (h.memCount_eq m).le
      have hfull := (take_sublist cfg.writeBatchSize s.fullMsinfoq).count_le m
      rw [← batchFull] at hfull
      rw [count_append]
      unfold memCount
      omega
    rw [length_append, length_map] at hle
    have hbig := cfg.nmslab_lt
    rw [← BitVec.ofNat_add] at hn
    have hnat := congrArg BitVec.toNat hn
    rw [BitVec.toNat_ofNat, BitVec.toNat_ofNat, Nat.mod_eq_of_lt (by omega),
      Nat.mod_eq_of_lt (by omega)] at hnat
    omega
  · intro hlast
    have hnum : numWritten (s.sortedFull cfg) = (s.batchFull cfg).length := by
      simp [numWritten, hlast]
    refine lifecycle_of_counted (fun m => ?_) (fun d => ?_)
      (h.counted.writeBatch h.owned hne hlen hlast)
    · rw [← h.memCount_eq m, ← memCount_writeBatch h.owned hne hlen m, hnum,
        drop_eq_nil_of_le (by simp), count_nil, Nat.add_zero]
    · rw [← h.diskCount_eq d, ← diskCount_writeBatch h.owned hne hlen d, hnum,
        drop_eq_nil_of_le (by simp [hlen]), count_nil, Nat.add_zero]

theorem Lifecycle.forceFlush_iff (h : s.Lifecycle cfg) :
    (s.forceFlush cfg).Lifecycle cfg ↔ s.partialSlabs cfg = [] := by
  constructor
  · intro h'
    refine eq_nil_iff_forall_not_mem.2 fun m hm => ?_
    have hlt : m < cfg.nmslab := mem_range.1 (mem_of_mem_filter hm)
    have hcount := memCount_forceFlush cfg s m
    rw [h'.memCount_eq, h.memCount_eq, if_pos hlt] at hcount
    exact absurd (count_pos_iff.2 hm) (by omega)
  · intro hnil
    rw [forceFlush, hnil]
    exact h

theorem Lifecycle.step_iff (h : s.Lifecycle cfg) {op : Op} (hstep : s.step cfg op = .ok s') :
    s'.Lifecycle cfg ↔ s.Orderly cfg op := by
  cases op with
  | conPutKV call =>
    obtain ⟨sid, hput⟩ := map_snd_eq_ok hstep
    obtain ⟨hmem, hdisk, hcount⟩ := conPutKV_counts hput
    refine iff_of_true (lifecycle_of_counted (fun m => ?_) (fun d => ?_)
      (hcount h.counted)) trivial
    · rw [hmem, h.memCount_eq]
    · rw [hdisk, h.diskCount_eq]
  | optBatchWriteLazyFlush =>
    obtain ⟨b, hwrite⟩ := map_snd_eq_ok hstep
    rcases optBatchWriteLazyFlush_cases hwrite with ⟨hskip, -, rfl⟩ | ⟨-, hlack, -, rfl⟩ |
      ⟨hskip, hlack, -, hne, hlen, rfl⟩
    · exact iff_of_true h (Or.inl hskip)
    · refine iff_of_true (lifecycle_of_counted (fun m => ?_) h.diskCount_eq
        (h.counted.pushBack cfg)) (Or.inr (Or.inl hlack))
      rw [memCount_pushBack, h.memCount_eq]
    · rw [h.writeBatch_iff hne hlen]
      simp [Orderly, hskip, hlack]
  | migrateReadLazyFlush =>
    obtain ⟨res, hread⟩ := map_snd_eq_ok hstep
    obtain ⟨hmem, hdisk, hcount⟩ := migrateReadLazyFlush_counts hread
    refine iff_of_true (lifecycle_of_counted (fun m => ?_) (fun d => ?_)
      (hcount h.counted)) trivial
    · rw [hmem, h.memCount_eq]
    · rw [hdisk, h.diskCount_eq]
  | forceFlush =>
    cases hstep
    exact h.forceFlush_iff

end TreeSeries

/-- In every state reached from `InitStable` by steps none of which takes a branch
that goes wrong, every slab is in exactly one place and the counters are right; and
from such a state a step keeps this exactly when it takes none of these branches. -/
theorem treeSeries_lifecycle (cfg : Setting) (mslab dslab : ℕ → Slab) (s : TreeSeries)
    (hrun : Run.Reaches (TreeSeries.Orderly cfg) (step cfg)
      (initStable cfg mslab dslab) s) :
    s.Lifecycle cfg ∧
      ∀ op s', s.step cfg op = .ok s' → (s'.Lifecycle cfg ↔ s.Orderly cfg op) := by
  have h : s.Lifecycle cfg :=
    hrun.invariant (lifecycle_initStable cfg mslab dslab)
      fun _ _ _ ih horder hop => (ih.step_iff hop).2 horder
  exact ⟨h, fun op s' hop => h.step_iff hop⟩

/-- The call of `ConPutKV` for chunk number `k` of a source, on the interval
`[2 * k, 2 * k + 1]`. -/
def samplePut (sourceId k : ℕ) : PutCall where
  sourceId := sourceId
  metricId := 1
  startTime := BitVec.ofNat 64 (2 * k)
  endTime := BitVec.ofNat 64 (2 * k + 1)
  value := []
  txn := 0

/-- `n` puts of a source, from chunk number `k` on. -/
def samplePuts (sourceId k n : ℕ) : List TreeSeries.Op :=
  (List.range' k n).map fun i => .conPutKV (samplePut sourceId i)

def sampleSetting : Setting := ⟨12, 12, 1, by decide, by decide, by decide⟩

def sampleStore : TreeSeries :=
  initStable sampleSetting (fun _ _ => ⟨0, []⟩) (fun _ _ => ⟨0, []⟩)

/-- Two slabs filled one after the other, written and read back. -/
theorem treeSeries_lifecycle_twoSlabs :
    ∃ s, Run.Reaches (TreeSeries.Orderly sampleSetting) (step sampleSetting)
        sampleStore s ∧
      s.memEvictSinfoq = [(0, 0), (1, 1)] ∧ s.diskEvictSinfoq = [0] ∧
      s.Lifecycle sampleSetting := by
  have hrun : (Run.exec (TreeSeries.Orderly sampleSetting) (step sampleSetting)
      sampleStore (samplePuts 1 0 32 ++ [.optBatchWriteLazyFlush, .migrateReadLazyFlush])).map
      (fun s => (s.memEvictSinfoq, s.diskEvictSinfoq)) = some ([(0, 0), (1, 1)], [0]) := by
    decide +kernel
  obtain ⟨s, hreach, hview⟩ := Run.exists_reaches_of_exec hrun
  exact ⟨s, hreach, congrArg Prod.fst hview, congrArg Prod.snd hview,
    (treeSeries_lifecycle sampleSetting _ _ s hreach).1⟩

/-- Slabs 0 and 2 are full and slab 1 is not: the batch writes slab 0 alone, and
slab 2 is lost. -/
theorem treeSeries_lifecycle_lostSlab :
    ∃ s, Run.Reaches (fun _ _ => True) (step sampleSetting) sampleStore s ∧
      ¬ s.Lifecycle sampleSetting := by
  have hrun : (Run.exec (fun _ _ => True) (step sampleSetting) sampleStore
      (samplePuts 1 0 16 ++ samplePuts 2 0 1 ++ samplePuts 1 16 16 ++
        [.optBatchWriteLazyFlush])).map
      (fun s => (s.memEvictSinfoq, s.nMemEvictSinfo)) = some ([(0, 0)], 2#32) := by
    decide +kernel
  obtain ⟨s, hreach, hview⟩ := Run.exists_reaches_of_exec hrun
  refine ⟨s, hreach, fun h => ?_⟩
  obtain ⟨hqueue, hcount⟩ := Prod.mk.inj hview
  have hn := h.nMemEvictSinfo
  rw [hqueue, hcount] at hn
  exact absurd hn (by decide)

end PromTCS
