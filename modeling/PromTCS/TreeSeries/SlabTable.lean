import PromTCS.TreeSeries.Keys

/-!
# The slab table kept for a restart

A batch dumps the table of disk slabs to the file `ssd_slab_info_`, and a new store
reads it back with `RecoveryDiskSlabInfo`. The dump is a task of the thread pool,
enqueued before the descriptions of the slabs are copied and waited for at the end of
the batch, so each entry of the file is as it was before or after its copy.

The read takes the length of the table as a `uint32_t` and enters into the index the
slots of the slabs that are not free. `CopyInfo` does not copy the flag `free_`, and
nothing else clears it for a disk slab: the index of the new store stays empty.
-/

namespace PromTCS

open List Function

namespace SlabInfo

end SlabInfo

namespace TreeSeries

/-- The table `WriteDiskSlabInfo` dumps in a batch: `late` tells the slabs whose entry
is written after their description is copied. -/
def writeDiskSlabInfo (cfg : Setting) (s : TreeSeries) (late : ℕ → Bool) : ℕ → SlabInfo :=
  fun d => if late d then (s.writeBatch cfg).dstable d else (s.batchPrepared cfg).dstable d

end TreeSeries

structure SlabTable where
  store : TreeSeries
  file : Option (ℕ → SlabInfo)

namespace SlabTable

open TreeSeries

inductive Op
  | conPutKV (call : PutCall)
  | optBatchWriteLazyFlush (late : ℕ → Bool)

def step (cfg : Setting) (t : SlabTable) : Op → Except Fault SlabTable
  | .conPutKV call => do
    let (_, s) ← t.store.conPutKV cfg call
    pure { t with store := s }
  | .optBatchWriteLazyFlush late => do
    let (written, s) ← t.store.optBatchWriteLazyFlush cfg
    pure { store := s
           file := if written then some (t.store.writeDiskSlabInfo cfg late) else t.file }

variable (cfg : Setting) (mslab dslab : ℕ → Slab)

def init : SlabTable where
  store := initStable cfg mslab dslab
  file := none

structure FlaggedFree (cfg : Setting) (t : SlabTable) : Prop where
  owned : t.store.Owned cfg
  free : ∀ d, (t.store.dstable d).free = true
  full : ∀ m ∈ t.store.fullMsinfoq, (t.store.mstable m).slots ≠ []
  used : ∀ d ∈ t.store.usedDsinfoq, (t.store.dstable d).slots ≠ []
  file : ∀ table ∈ t.file, ∀ d, (table d).free = true

variable {s : TreeSeries} {call : PutCall} {cfg : Setting} {t : SlabTable}

theorem SlotStep.ne_nil {m : ℕ} {info : SlabInfo} {tree tree' : MassTree} {slots : List Slot}
    (h : SlotStep call m info tree slots tree') : slots ≠ [] := by
  cases h with
  | extend j slot hfind hslot =>
    intro hnil
    rw [set_eq_nil_iff] at hnil
    simp [hnil] at hslot
  | add hfind hlen hunfold => simp

theorem conPutKV_frame {s' : TreeSeries} {sid : Option ℕ} (h : s.conPutKV cfg call = .ok (sid, s')) :
    s'.dstable = s.dstable ∧ s'.usedDsinfoq = s.usedDsinfoq ∧
      ∀ m ∈ s'.fullMsinfoq, (s'.mstable m).slots ≠ [] ∨
        m ∈ s.fullMsinfoq ∧ s'.mstable m = s.mstable m := by
  rcases conPutKV_cases h with ⟨-, rfl⟩ | ⟨m, s₁, -, hcur, hput⟩
  · exact ⟨rfl, rfl, fun m hm => Or.inr ⟨hm, rfl⟩⟩
  · obtain ⟨-, -, slots, tree, txn, hslots, rfl⟩ := putInSlab_eq_ok hput
    obtain ⟨hframe, -⟩ := currentSlab_frame hcur
    refine ⟨hframe.dstable, hframe.used, fun m' hm' => ?_⟩
    by_cases hne : m' = m
    · subst hne
      refine Or.inl ?_
      simpa [afterPut] using SlotStep.ne_nil hslots
    · have hold : m' ∈ s₁.fullMsinfoq := by
        simp only [afterPut] at hm'
        split at hm'
        · simpa [hne] using hm'
        · exact hm'
      refine Or.inr ⟨hframe.full ▸ hold, ?_⟩
      simp only [afterPut, update_of_ne hne, hframe.other m' hne]

theorem FlaggedFree.conPutKV (h : t.FlaggedFree cfg) {sid : Option ℕ}
    (hput : t.store.conPutKV cfg call = .ok (sid, s)) : FlaggedFree cfg { t with store := s } := by
  obtain ⟨hdisk, hused, hfull⟩ := conPutKV_frame hput
  obtain ⟨hmemCount, hdiskCount, -⟩ := conPutKV_counts hput
  refine ⟨h.owned.of_counts hmemCount hdiskCount, ?_, fun m hm => ?_, ?_, h.file⟩
  · simpa only [hdisk] using h.free
  · rcases hfull m hm with hslots | ⟨hold, hsame⟩
    · exact hslots
    · rw [show ({ t with store := s } : SlabTable).store.mstable m = _ from hsame]
      exact h.full m hold
  · simpa only [hdisk, hused] using h.used

/-! ## OptBatchWriteLazyFlush -/

section

variable (hfree : ∀ d, (s.dstable d).free = true)
include hfree

theorem free_foldl_evictDisk (ds : List ℕ) :
    ∀ d, ((ds.foldl evictDisk s).dstable d).free = true := by
  induction ds generalizing s with
  | nil => exact hfree
  | cons e ds ih =>
    refine ih fun d => ?_
    simp only [evictDisk, update_apply]
    split
    · rfl
    · exact hfree d

theorem free_linkPairs (pairs : List (ℕ × ℕ)) :
    ∀ d, ((s.linkPairs pairs).dstable d).free = true := by
  induction pairs generalizing s with
  | nil => exact hfree
  | cons p pairs ih =>
    refine ih fun d => ?_
    simp only [linkPair, update_apply]
    split
    · exact hfree p.2
    · exact hfree d

theorem free_batchPrepared :
    ∀ d, ((s.batchPrepared cfg).dstable d).free = true :=
  free_foldl_evictDisk (s := s.popBatch cfg) hfree _

end

section WriteBatch

variable {cfg : Setting} {s : TreeSeries} (hs : s.Owned cfg) (hne : s.batchFull cfg ≠ [])
  (hlen : (s.batchFull cfg).length = (s.batchDisk cfg).length)

include hs hne hlen

theorem free_writeBatch (hfree : ∀ d, (s.dstable d).free = true) :
    ∀ d, ((s.writeBatch cfg).dstable d).free = true := by
  rw [writeBatch_eq hne hlen hs.nodup_batchDisk]
  refine free_linkPairs (fun d => ?_) _
  rw [copyPairs_eq]
  exact free_batchPrepared hfree d

theorem slots_writeBatch (hfull : ∀ m ∈ s.fullMsinfoq, (s.mstable m).slots ≠ [])
    (hused : ∀ d ∈ s.usedDsinfoq, (s.dstable d).slots ≠ []) :
    ∀ d ∈ (s.writeBatch cfg).usedDsinfoq, ((s.writeBatch cfg).dstable d).slots ≠ [] := by
  intro d hd
  by_cases hw : d ∈ (s.batchWritten cfg).map Prod.snd
  · obtain ⟨⟨m, d'⟩, hmem, rfl⟩ := mem_map.1 hw
    rw [(hs.writeBatch_written hne hlen hmem).2.1]
    exact hfull m (mem_of_mem_take (mem_batchWritten hlen hmem).1)
  · have hold : d ∈ s.usedDsinfoq := by
      rw [writeBatch_eq hne hlen hs.nodup_batchDisk] at hd
      exact (mem_append.1 hd).resolve_right hw
    have hev : d ∉ s.batchEvicted cfg := by
      intro hev
      have hone := hs.diskCount_le_one d
      have hcount := count_pos_iff.2 hold
      have hcount' := count_pos_iff.2 (mem_batchEvicted hev)
      unfold diskCount at hone
      omega
    rw [(hs.writeBatch_other hne hlen hev hw).1]
    exact hused d hold

end WriteBatch

theorem FlaggedFree.writeBatch (h : t.FlaggedFree cfg) (hne : t.store.batchFull cfg ≠ [])
    (hlen : (t.store.batchFull cfg).length = (t.store.batchDisk cfg).length) (late : ℕ → Bool) :
    FlaggedFree cfg ⟨t.store.writeBatch cfg, some (t.store.writeDiskSlabInfo cfg late)⟩ where
  owned := h.owned.writeBatch hne hlen
  free := free_writeBatch h.owned hne hlen h.free
  full m hm := by
    rw [writeBatch_eq hne hlen h.owned.nodup_batchDisk] at hm ⊢
    exact h.full m (mem_of_mem_drop hm)
  used := slots_writeBatch h.owned hne hlen h.full h.used
  file table htable d := by
    cases htable
    simp only [writeDiskSlabInfo]
    split
    · exact free_writeBatch h.owned hne hlen h.free d
    · exact free_batchPrepared h.free d

theorem FlaggedFree.pushBack (h : t.FlaggedFree cfg) :
    FlaggedFree cfg { t with store := t.store.pushBack cfg } where
  owned := h.owned.pushBack
  free := h.free
  full m hm := by
    refine h.full m ?_
    rcases mem_append.1 hm with hdrop | htake
    · exact mem_of_mem_drop hdrop
    · exact mem_of_mem_take htake
  used := h.used
  file := h.file

/-! ## Runs -/

theorem FlaggedFree.step {t' : SlabTable} (h : t.FlaggedFree cfg) {op : Op}
    (hstep : t.step cfg op = .ok t') : t'.FlaggedFree cfg := by
  cases op with
  | conPutKV call =>
    obtain ⟨⟨sid, s⟩, hput, hrest⟩ := Run.bind_eq_ok hstep
    cases hrest
    exact h.conPutKV hput
  | optBatchWriteLazyFlush late =>
    obtain ⟨⟨written, s⟩, hwrite, hrest⟩ := Run.bind_eq_ok hstep
    cases hrest
    rcases optBatchWriteLazyFlush_cases hwrite with ⟨-, rfl, rfl⟩ | ⟨-, -, rfl, rfl⟩ |
      ⟨-, -, rfl, hne, hlen, rfl⟩
    · exact h
    · exact h.pushBack
    · exact h.writeBatch hne hlen late

end SlabTable

end PromTCS
