import PromTCS.TreeSeries.Scan

/-!
# The buffers of the disk reads

`ReadDiskSlab` takes a buffer from the queue of free buffers and hands it to its caller, who
gives it back with `FreeBufSlab`. A read that returns fewer bytes than a slab has hands out a
null pointer, and nobody knows the buffer any more.
-/

namespace PromTCS

open List

/-- What a pointer to a slab points at: a memory slab, a buffer of the queue, a part of the
buffer of the sequential reads, or nothing. -/
inductive SlabPtr
  | mem (m : ℕ)
  | buffer (b : ℕ)
  | sequential (i : ℕ)
  | null
deriving DecidableEq, Repr

/-- `free_bsinfoq_` and `nfree_bsinfo_`. -/
structure BufferPool where
  freeBsinfoq : List SlabPtr
  nfreeBsinfo : BitVec 32
deriving DecidableEq, Repr

namespace BufferPool

/-- The buffers of a store, `nbuf_slab_` of them. -/
def buffers (cfg : Setting) : List SlabPtr := (List.range cfg.nbufSlab).map .buffer

def init (cfg : Setting) : BufferPool where
  freeBsinfoq := buffers cfg
  nfreeBsinfo := BitVec.ofNat 32 cfg.nbufSlab

/-- `ReadDiskSlab(sinfo)`; `full` says whether `pread` returned `SLAB_SIZE` bytes. Without a free
buffer the loop of `try_pop` does not end. -/
def readDiskSlab (q : BufferPool) (full : Bool) : Except Fault (SlabPtr × BufferPool) :=
  match q.freeBsinfoq with
  | [] => .error .diverges
  | b :: rest => .ok (if full then b else .null, ⟨rest, q.nfreeBsinfo - 1⟩)

def freeBufSlab (q : BufferPool) (ptr : SlabPtr) : BufferPool :=
  if ptr = .null then q else ⟨q.freeBsinfoq ++ [ptr], q.nfreeBsinfo + 1⟩

/-- The reads of `Scan` and of `BatchDiskRead`, with the outcome of each read by its position. -/
def readSlabs (full : ℕ → Bool) : ℕ → List Place → BufferPool →
    Except Fault (List SlabPtr × BufferPool)
  | _, [], q => .ok ([], q)
  | i, .mem m :: ps, q => do
    let (ptrs, q) ← readSlabs full (i + 1) ps q
    pure (.mem m :: ptrs, q)
  | i, .disk _ :: ps, q => do
    let (ptr, q) ← q.readDiskSlab (full i)
    let (ptrs, q) ← readSlabs full (i + 1) ps q
    pure (ptr :: ptrs, q)

def shortReads (full : ℕ → Bool) : ℕ → List Place → ℕ
  | _, [] => 0
  | i, .mem _ :: ps => shortReads full (i + 1) ps
  | i, .disk _ :: ps => (if full i then 0 else 1) + shortReads full (i + 1) ps

/-- The loop of `~TreeSeriesIterator` over its slabs. -/
def release (q : BufferPool) (arr : List (Place × SlabPtr)) : BufferPool :=
  arr.foldl (fun q e =>
    match e.1 with
    | .mem _ => q
    | .disk _ => q.freeBufSlab e.2) q

/-! ## Who has which buffer -/

def held (arr : List (Place × SlabPtr)) : List SlabPtr :=
  arr.filterMap fun e =>
    match e.1 with
    | .mem _ => none
    | .disk _ => if e.2 = .null then none else some e.2

structure Accounts (cfg : Setting) (q : BufferPool) (out : List SlabPtr) : Prop where
  perm : (q.freeBsinfoq ++ out).Perm (buffers cfg)
  count : q.nfreeBsinfo = BitVec.ofNat 32 q.freeBsinfoq.length

variable {cfg : Setting} {q q' : BufferPool} {out out' : List SlabPtr}

theorem Accounts.congr (h : q.Accounts cfg out) (hout : out.Perm out') : q.Accounts cfg out' :=
  ⟨(hout.symm.append_left _).trans h.perm, h.count⟩

theorem Accounts.readDiskSlab (h : q.Accounts cfg out) {full : Bool} {ptr : SlabPtr}
    (hread : q.readDiskSlab full = .ok (ptr, q')) :
    ∃ b, b ≠ .null ∧ ptr = (if full then b else .null) ∧ q'.Accounts cfg (b :: out) := by
  unfold BufferPool.readDiskSlab at hread
  cases hfree : q.freeBsinfoq with
  | nil => simp [hfree] at hread
  | cons b rest =>
    simp only [hfree, Except.ok.injEq, Prod.mk.injEq] at hread
    obtain ⟨rfl, rfl⟩ := hread
    refine ⟨b, ?_, rfl, ?_, ?_⟩
    · have hb : b ∈ buffers cfg := h.perm.subset (by simp [hfree])
      obtain ⟨i, -, rfl⟩ := mem_map.1 hb
      exact SlabPtr.noConfusion
    · refine List.perm_middle.trans ?_
      rw [← cons_append, ← hfree]
      exact h.perm
    · rw [h.count, hfree, length_cons]
      exact TreeSeries.ofNat_succ_sub_one _

theorem length_readSlabs {full : ℕ → Bool} {i : ℕ} {ps : List Place} {ptrs : List SlabPtr}
    (hread : readSlabs full i ps q = .ok (ptrs, q')) : ptrs.length = ps.length := by
  induction ps generalizing q i ptrs with
  | nil =>
    cases hread
    rfl
  | cons p ps ih =>
    cases p with
    | mem m =>
      obtain ⟨⟨ptrs', q₁⟩, hrest, hread⟩ := Run.bind_eq_ok hread
      cases hread
      exact congrArg Nat.succ (ih hrest)
    | disk d =>
      obtain ⟨⟨ptr, q₁⟩, -, hread⟩ := Run.bind_eq_ok hread
      obtain ⟨⟨ptrs', q₂⟩, hrest, hread⟩ := Run.bind_eq_ok hread
      cases hread
      exact congrArg Nat.succ (ih hrest)

theorem Accounts.readSlabs {full : ℕ → Bool} {i : ℕ} {ps : List Place} {ptrs : List SlabPtr}
    (h : q.Accounts cfg out) (hread : readSlabs full i ps q = .ok (ptrs, q')) :
    ∃ lost, lost.length = shortReads full i ps ∧
      q'.Accounts cfg (held (ps.zip ptrs) ++ lost ++ out) := by
  induction ps generalizing q i ptrs out with
  | nil =>
    cases hread
    exact ⟨[], rfl, h⟩
  | cons p ps ih =>
    cases p with
    | mem m =>
      obtain ⟨⟨ptrs', q₁⟩, hrest, hread⟩ := Run.bind_eq_ok hread
      cases hread
      exact ih h hrest
    | disk d =>
      obtain ⟨⟨ptr, q₁⟩, hone, hread⟩ := Run.bind_eq_ok hread
      obtain ⟨⟨ptrs', q₂⟩, hrest, hread⟩ := Run.bind_eq_ok hread
      cases hread
      obtain ⟨b, hb, hptr, h₁⟩ := h.readDiskSlab hone
      obtain ⟨lost, hlost, hacc⟩ := ih h₁ hrest
      cases hf : full i with
      | true =>
        rw [hf, if_pos rfl] at hptr
        subst hptr
        refine ⟨lost, by simp [shortReads, hf, hlost], hacc.congr ?_⟩
        have hheld : held ((Place.disk d :: ps).zip (ptr :: ptrs')) =
            ptr :: held (ps.zip ptrs') := by simp [held, hb]
        rw [hheld]
        exact perm_middle
      | false =>
        rw [hf, if_neg Bool.false_ne_true] at hptr
        subst hptr
        refine ⟨b :: lost, by simp [shortReads, hf, hlost, Nat.add_comm], hacc.congr ?_⟩
        have hheld : held ((Place.disk d :: ps).zip (SlabPtr.null :: ptrs')) =
            held (ps.zip ptrs') := by simp [held]
        rw [hheld, append_assoc, append_assoc]
        exact List.perm_middle.append_left _

theorem Accounts.freeBufSlab {ptr : SlabPtr} (hptr : ptr ≠ .null)
    (h : q.Accounts cfg (ptr :: out)) : (q.freeBufSlab ptr).Accounts cfg out := by
  rw [BufferPool.freeBufSlab, if_neg hptr]
  constructor
  · rw [append_assoc]
    exact h.perm
  · rw [h.count, length_append, BitVec.ofNat_add]
    rfl

theorem Accounts.release {arr : List (Place × SlabPtr)} (h : q.Accounts cfg (held arr ++ out)) :
    (q.release arr).Accounts cfg out := by
  induction arr generalizing q with
  | nil => exact h
  | cons e arr ih =>
    obtain ⟨p, ptr⟩ := e
    cases p with
    | mem m => exact ih h
    | disk d =>
      refine ih ?_
      by_cases hptr : ptr = .null
      · simpa [BufferPool.freeBufSlab, held, hptr] using h
      · refine Accounts.freeBufSlab hptr ?_
        simpa [held, hptr] using h

end BufferPool

/-! ## The places of the index -/

def Place.InTable (cfg : Setting) : Place → Prop
  | .mem m => m < cfg.nmslab
  | .disk d => d < cfg.ndslab

namespace TreeSeries

structure InTables (cfg : Setting) (s : TreeSeries) : Prop where
  owned : s.Owned cfg
  evict : ∀ p ∈ s.memEvictSinfoq, p.2 < cfg.ndslab
  tree : ∀ (k : Key) (p : Place), s.massTree[k]? = some p → p.InTable cfg

variable {cfg : Setting} {s s' : TreeSeries}

theorem InTables.currentSlab (h : s.InTables cfg) {c : ClassId} {m : ℕ} {s₁ : TreeSeries}
    (hcur : s.currentSlab c = some (m, s₁)) : s₁.InTables cfg := by
  have howned : s₁.Owned cfg := h.owned.of_counts (memCount_currentSlab hcur)
    fun d => congrFun (diskCount_currentSlab hcur) d
  rcases currentSlab_cases hcur with ⟨-, rfl⟩ | ⟨-, rest, hfree, rfl⟩ | ⟨-, -, d, rest, hev, rfl⟩
  · exact h
  · exact ⟨howned, h.evict, h.tree⟩
  · refine ⟨howned, fun p hp => h.evict p (hev ▸ mem_cons_of_mem _ hp), fun k p hk => ?_⟩
    classical
    change (s.massTree.updateSlots (s.mstable m) (.disk d))[k]? = some p at hk
    rw [MassTree.getElem?_updateSlots] at hk
    split_ifs at hk
    · obtain ⟨-, -, rfl⟩ := Option.map_eq_some_iff.1 hk
      exact h.evict (m, d) (hev ▸ mem_cons_self)
    · exact h.tree k p hk

theorem of_getElem?_insertMT {tree : MassTree} {k a : Key} {p q : Place}
    (h : (tree.insertMT k p)[a]? = some q) : q = p ∨ tree[a]? = some q := by
  rw [MassTree.getElem?_insertMT] at h
  split_ifs at h
  · exact Or.inl (Option.some.inj h).symm
  · exact Or.inr h

theorem getElem?_of_slotStep {call : PutCall} {m : ℕ} {info : SlabInfo} {tree tree' : MassTree}
    {slots : List Slot} (h : SlotStep call m info tree slots tree') {k : Key} {p : Place}
    (hk : tree'[k]? = some p) : p = .mem m ∨ tree[k]? = some p := by
  cases h with
  | extend j slot hfind hslot =>
    refine (of_getElem?_insertMT hk).imp_right fun hold => ?_
    rw [MassTree.getElem?_removeMT] at hold
    split_ifs at hold
    exact hold
  | add hfind hlen hunfold =>
    exact (of_getElem?_insertMT hk).elim Or.inl of_getElem?_insertMT

theorem InTables.conPutKV (h : s.InTables cfg) {call : PutCall} {sid : Option ℕ}
    (hput : s.conPutKV cfg call = .ok (sid, s')) : s'.InTables cfg := by
  obtain ⟨hmem, hdisk, -⟩ := conPutKV_counts hput
  have howned := h.owned.of_counts hmem hdisk
  rcases conPutKV_cases hput with ⟨-, rfl⟩ | ⟨m, s₁, -, hcur, hslab⟩
  · exact h
  · obtain ⟨-, -, slots, tree, txn, hstep, rfl⟩ := putInSlab_eq_ok hslab
    have h₁ := h.currentSlab hcur
    refine ⟨howned, h₁.evict, fun k p hk => ?_⟩
    rcases getElem?_of_slotStep hstep hk with rfl | hold
    · have hc := slabOf_currentSlab_self hcur
      have hpos := Places.occupants_pos hc
      refine h₁.owned.lt_of_memCount ?_
      unfold memCount
      omega
    · exact h₁.tree k p hold

theorem diskCount_pos_of_batchWritten
    (hlen : (s.batchFull cfg).length = (s.batchDisk cfg).length) {p : ℕ × ℕ}
    (hp : p ∈ s.batchWritten cfg) : 0 < s.diskCount p.2 := by
  have hmem : p.2 ∈ (s.batchWritten cfg).map Prod.snd := mem_map.2 ⟨p, hp, rfl⟩
  rw [map_snd_batchWritten hlen] at hmem
  have hdisk : p.2 ∈ s.batchDisk cfg :=
    (sortBySlabId_perm _).mem_iff.1 (mem_of_mem_take hmem)
  unfold diskCount
  rcases mem_append.1 hdisk with hfree | hevict
  · have := count_pos_iff.2 (mem_of_mem_take hfree)
    omega
  · have := count_pos_iff.2 (mem_of_mem_take hevict)
    omega

theorem InTables.optBatchWriteLazyFlush (h : s.InTables cfg) {b : Bool}
    (hwrite : s.optBatchWriteLazyFlush cfg = .ok (b, s')) : s'.InTables cfg := by
  rcases optBatchWriteLazyFlush_cases hwrite with ⟨-, -, rfl⟩ | ⟨-, -, -, rfl⟩ |
    ⟨-, -, -, hne, hlen, rfl⟩
  · exact h
  · exact ⟨h.owned.pushBack, h.evict, h.tree⟩
  · refine ⟨h.owned.writeBatch hne hlen, fun p hp => ?_, fun k p hk => ?_⟩
    · rw [writeBatch_eq hne hlen h.owned.nodup_batchDisk] at hp
      rcases mem_append.1 hp with hp | hp
      · exact h.evict p hp
      · exact h.owned.lt_of_diskCount (diskCount_pos_of_batchWritten hlen hp)
    · rw [← index_tiered_eq_some, h.owned.tiered_writeBatch hne hlen] at hk
      refine h.tree k p ((index_tiered_eq_some _ _ _).1 ?_)
      simp only [TieredIndex.flush] at hk
      split_ifs at hk
      exact hk

theorem InTables.migrateReadLazyFlush (h : s.InTables cfg) {res : Option (List (ℕ × Slab))}
    (hread : s.migrateReadLazyFlush cfg = .ok (res, s')) : s'.InTables cfg := by
  obtain ⟨hmem, hdisk, -⟩ := migrateReadLazyFlush_counts hread
  have howned := h.owned.of_counts hmem hdisk
  rcases migrateReadLazyFlush_cases hread with ⟨-, rfl⟩ | ⟨-, -, -, rfl⟩
  · exact h
  · exact ⟨howned, h.evict, h.tree⟩

theorem InTables.filter_scanMT (h : s.InTables cfg) (sourceId metricId startTime endTime : ℕ) :
    (s.scanMT sourceId metricId startTime endTime).filter (fun p => slabId p ≠ 2 ^ 32 - 1) =
      s.scanMT sourceId metricId startTime endTime := by
  refine filter_eq_self.2 fun p hp => decide_eq_true ?_
  rw [scanMT, RangeScan.mem_foldl_push] at hp
  obtain ⟨⟨k, p'⟩, hk, rfl⟩ := mem_map.1 (hp.resolve_left not_mem_nil)
  have hin := h.tree k p' ((MassTree.mem_scan _ _ _ _ _ k p').1 hk).1
  have hm := cfg.nmslab_lt
  have hd := cfg.ndslab_lt
  cases p' with
  | mem m =>
    change m < cfg.nmslab at hin
    change m ≠ 2 ^ 32 - 1
    omega
  | disk d =>
    change d < cfg.ndslab at hin
    change d ≠ 2 ^ 32 - 1
    omega

end TreeSeries

end PromTCS
