import PromTCS.TreeSeries.Keys

/-!
# The batch write that frees its slabs at once

`OptBatchWrite` is the older form of the batch write. It takes disk slabs from the free queue
only, in the order of the queue, moves the keys of the memory slabs to them and frees the
memory slabs. The memory slabs are sorted, the disk slabs are not: a run of memory slabs is
written at once if the last and the first of its disk slabs are as far apart as they would be
in a run.

The keys of a slab are updated with the metric ids of its disk slab. They are those of the
memory slab unless `FindSinfoSubSequence` has left the slab out: then the description of the
disk slab is an old one. `leftover` is what the array `metric_id_` of a disk slab holds where
the slab has no slot.
-/

namespace PromTCS

open List Function Updates

/-- `UpdateMT` of all keys. -/
def MassTree.updateAll (t : MassTree) (keys : List Key) (p : Place) : MassTree :=
  keys.foldl (fun t k => t.updateMT k p) t

namespace TreeSeries

def endsMatch (ds : List ℕ) (run : ℕ × ℕ) : Bool :=
  BitVec.ofNat 32 (run.2 - run.1) ==
    BitVec.ofNat 32 (ds.getD run.2 0) - BitVec.ofNat 32 (ds.getD run.1 0)

/-- `CopyInfo` and the push that follows it. -/
def describe (s : TreeSeries) (m d : ℕ) : TreeSeries :=
  { s with
    dstable := update s.dstable d ((s.dstable d).copyInfo (s.mstable m))
    usedDsinfoq := s.usedDsinfoq ++ [d] }

variable (ms ds : List ℕ)

def eagerRun (s : TreeSeries) (run : ℕ × ℕ) : TreeSeries :=
  let js := List.range' run.1 (run.2 + 1 - run.1)
  if endsMatch ds run then
    js.foldl (fun s j => s.describe (ms.getD j 0) (ds.getD j 0))
      (s.optWriteToSSD (ms.getD run.1 0) (ds.getD run.1 0) (run.2 - run.1 + 1))
  else
    js.foldl (fun s j =>
      (s.describe (ms.getD j 0) (ds.getD j 0)).optWriteToSSD (ms.getD j 0) (ds.getD j 0) 1) s

/-- `GetSinfoMetricID(sinfo, i)`, also where the slab has no slot `i`. -/
def metricAt (info : SlabInfo) (leftover : ℕ → ℕ) (i : ℕ) : ℕ :=
  match info.slots[i]? with
  | some slot => info.getSinfoMetricID slot
  | none => leftover i * cxNum + info.cid.1

def movedKeys (info dinfo : SlabInfo) (leftover : ℕ → ℕ) : List Key :=
  info.slots.zipIdx.flatMap fun e =>
    [⟨info.getSinfoSourceID e.1, metricAt dinfo leftover e.2, e.1.startTime⟩,
      ⟨info.getSinfoSourceID e.1, metricAt dinfo leftover e.2, e.1.endTime⟩]

def moveSlab (leftover : ℕ → ℕ → ℕ) (s : TreeSeries) (p : ℕ × ℕ) : TreeSeries :=
  { s with
    massTree := s.massTree.updateAll (movedKeys (s.mstable p.1) (s.dstable p.2) (leftover p.2))
      (.disk p.2)
    mstable := update s.mstable p.1 (s.mstable p.1).freeSlab }

variable (cfg : Setting) (s : TreeSeries)

def eagerDisk : List ℕ :=
  s.freeDsinfoq.take (s.batchFull cfg).length

/-- The part of `OptBatchWrite` that writes the slabs. -/
def writeEager (cfg : Setting) (leftover : ℕ → ℕ → ℕ) (s : TreeSeries) : TreeSeries :=
  let count := (s.batchFull cfg).length
  let ms := sortBySlabId (s.batchFull cfg)
  let ds := s.eagerDisk cfg
  let s₁ := (findSinfoSubSequence ms (count - 1)).foldl (eagerRun ms ds)
    { s with
      fullMsinfoq := s.fullMsinfoq.drop cfg.writeBatchSize
      freeDsinfoq := s.freeDsinfoq.drop count }
  let s₂ := (ms.zip ds).foldl (moveSlab leftover) s₁
  { s₂ with
    freeMsinfoq := s₂.freeMsinfoq ++ ms
    nfreeMsinfoq := s₂.nfreeMsinfoq + BitVec.ofNat 32 count
    nfullMsinfoq := s₂.nfullMsinfoq - BitVec.ofNat 32 count
    nfreeDsinfoq := s₂.nfreeDsinfoq - BitVec.ofNat 32 count
    nusedDsinfoq := s₂.nusedDsinfoq + BitVec.ofNat 32 count }

/-- The first two returns of `OptBatchWrite`. -/
def eagerSkips : Bool :=
  decide (s.nfullMsinfoq.toNat < cfg.writeBatchSize ∧
    s.nfreeDsinfoq.toNat < cfg.writeBatchSize) || s.fullMsinfoq.isEmpty

def eagerLacksDisk : Bool :=
  decide (s.freeDsinfoq.length < (s.batchFull cfg).length)

def optBatchWrite (cfg : Setting) (leftover : ℕ → ℕ → ℕ) (s : TreeSeries) :
    Except Fault (Bool × TreeSeries) :=
  if s.eagerSkips cfg then pure (false, s)
  else if cfg.writeBatchSize = 0 then throw .outOfBounds
  else if s.eagerLacksDisk cfg then pure (false, s.pushBack cfg)
  else pure (true, s.writeEager cfg leftover)

/-! ## The runs -/

def eagerPairs (run : ℕ × ℕ) : List (ℕ × ℕ) :=
  if endsMatch ds run then
    (List.range (run.2 - run.1 + 1)).map fun i => (ms.getD run.1 0 + i, ds.getD run.1 0 + i)
  else (runIndices run).map (pairAt ms ds)

theorem foldl_describe (s : TreeSeries) (pairs : List (ℕ × ℕ)) :
    pairs.foldl (fun s p => s.describe p.1 p.2) s =
      { s with
        dstable := describePairs s.dstable s.mstable pairs
        usedDsinfoq := s.usedDsinfoq ++ pairs.map Prod.snd } := by
  induction pairs generalizing s with
  | nil => simp [describePairs]
  | cons p pairs ih =>
    rw [foldl_cons, ih]
    simp only [describe, map_cons, append_assoc, singleton_append]
    rfl

theorem foldl_describe_optWriteToSSD (s : TreeSeries) (pairs : List (ℕ × ℕ)) :
    pairs.foldl (fun s p => (s.describe p.1 p.2).optWriteToSSD p.1 p.2 1) s =
      { s with
        dslab := apply s.dslab (pairs.map fun p => (p.2, s.mslab p.1))
        dstable := describePairs s.dstable s.mstable pairs
        usedDsinfoq := s.usedDsinfoq ++ pairs.map Prod.snd } := by
  induction pairs generalizing s with
  | nil => simp [describePairs, apply]
  | cons p pairs ih =>
    have hslab := dslab_optWriteToSSD_one (s.describe p.1 p.2) p.1 p.2
    rw [foldl_cons, ih, hslab, map_cons, apply_cons]
    simp only [describe, optWriteToSSD, map_cons, append_assoc,
      singleton_append]
    rfl

theorem eagerRun_eq (s : TreeSeries) (run : ℕ × ℕ) :
    s.eagerRun ms ds run =
      { s with
        dslab := apply s.dslab
          ((eagerPairs ms ds run).map fun p => (p.2, s.mslab p.1))
        dstable := describePairs s.dstable s.mstable ((runIndices run).map (pairAt ms ds))
        usedDsinfoq := s.usedDsinfoq ++ ((runIndices run).map (pairAt ms ds)).map Prod.snd } := by
  unfold eagerRun eagerPairs
  simp only
  split_ifs with hends
  · have hfold := foldl_describe
      (s.optWriteToSSD (ms.getD run.1 0) (ds.getD run.1 0) (run.2 - run.1 + 1))
      ((runIndices run).map (pairAt ms ds))
    rw [foldl_map] at hfold
    refine hfold.trans ?_
    rw [optWriteToSSD_eq_copyPairs, copyPairs_eq, dslab_copyPairs]
  · have hfold := foldl_describe_optWriteToSSD s ((runIndices run).map (pairAt ms ds))
    rw [foldl_map] at hfold
    exact hfold

theorem foldl_eagerRun (runs : List (ℕ × ℕ)) (s : TreeSeries) :
    runs.foldl (eagerRun ms ds) s =
      { s with
        dslab := apply s.dslab
          ((runs.flatMap (eagerPairs ms ds)).map fun p => (p.2, s.mslab p.1))
        dstable := describePairs s.dstable s.mstable
          ((runs.flatMap runIndices).map (pairAt ms ds))
        usedDsinfoq := s.usedDsinfoq ++
          ((runs.flatMap runIndices).map (pairAt ms ds)).map Prod.snd } := by
  induction runs generalizing s with
  | nil => simp [describePairs, apply]
  | cons run runs ih =>
    rw [foldl_cons, ih, eagerRun_eq]
    simp only [flatMap_cons, map_append, describePairs_append, apply_append,
      append_assoc]

/-! ## The keys -/

end TreeSeries

theorem MassTree.getElem?_updateAll (t : MassTree) (keys : List Key) (p : Place) (k : Key) :
    (t.updateAll keys p)[k]? = if k ∈ keys then t[k]?.map fun _ => p else t[k]? := by
  induction keys generalizing t with
  | nil => simp [updateAll]
  | cons k' keys ih =>
    rw [updateAll, foldl_cons, ← updateAll, ih, getElem?_updateMT]
    by_cases hk : k' = k
    · subst hk
      by_cases hrest : k' ∈ keys <;> simp [hrest, comp_def]
    · have hk' : k ≠ k' := Ne.symm hk
      by_cases hrest : k ∈ keys <;> simp [hrest, hk, hk']

namespace TreeSeries

def moveKeys (mstable dstable : ℕ → SlabInfo) (leftover : ℕ → ℕ → ℕ) (t : MassTree)
    (p : ℕ × ℕ) : MassTree :=
  t.updateAll (movedKeys (mstable p.1) (dstable p.2) (leftover p.2)) (.disk p.2)

theorem foldl_moveSlab_eq (leftover : ℕ → ℕ → ℕ) (s : TreeSeries) (pairs : List (ℕ × ℕ)) :
    pairs.foldl (moveSlab leftover) s =
      { s with
        massTree := (pairs.foldl (moveSlab leftover) s).massTree
        mstable := (pairs.foldl (moveSlab leftover) s).mstable } := by
  induction pairs generalizing s with
  | nil => rfl
  | cons p pairs ih => exact ih (s.moveSlab leftover p)

theorem massTree_foldl_moveSlab (leftover : ℕ → ℕ → ℕ) (s : TreeSeries) {pairs : List (ℕ × ℕ)}
    (hnd : (pairs.map Prod.fst).Nodup) :
    (pairs.foldl (moveSlab leftover) s).massTree =
      pairs.foldl (moveKeys s.mstable s.dstable leftover) s.massTree := by
  induction pairs generalizing s with
  | nil => rfl
  | cons p pairs ih =>
    rw [map_cons, nodup_cons] at hnd
    rw [foldl_cons, ih _ hnd.2, foldl_cons]
    refine foldl_ext _ _ _ fun t p' hp' => ?_
    have hne : p'.1 ≠ p.1 := fun heq => hnd.1 (heq ▸ mem_map_of_mem hp')
    simp only [moveKeys, moveSlab, update_of_ne hne]

section

variable {mstable dstable : ℕ → SlabInfo} {leftover : ℕ → ℕ → ℕ} {pairs : List (ℕ × ℕ)}
  {t : MassTree} {k : Key}

theorem getElem?_foldl_moveKeys_of_notMem
    (h : ∀ p ∈ pairs, k ∉ movedKeys (mstable p.1) (dstable p.2) (leftover p.2)) :
    (pairs.foldl (moveKeys mstable dstable leftover) t)[k]? = t[k]? := by
  induction pairs generalizing t with
  | nil => rfl
  | cons p pairs ih =>
    rw [foldl_cons, ih fun p' hp' => h p' (mem_cons_of_mem p hp'), moveKeys,
      MassTree.getElem?_updateAll, if_neg (h p mem_cons_self)]

theorem getElem?_foldl_moveKeys_of_mem (ht : t[k]? ≠ none)
    (h : ∃ p ∈ pairs, k ∈ movedKeys (mstable p.1) (dstable p.2) (leftover p.2)) :
    ∃ p ∈ pairs, (pairs.foldl (moveKeys mstable dstable leftover) t)[k]? = some (.disk p.2) := by
  induction pairs generalizing t with
  | nil =>
    obtain ⟨p, hp, -⟩ := h
    cases hp
  | cons p pairs ih =>
    have hget := MassTree.getElem?_updateAll t
      (movedKeys (mstable p.1) (dstable p.2) (leftover p.2)) (.disk p.2) k
    obtain ⟨q, hq⟩ := Option.ne_none_iff_exists'.1 ht
    have ht' : (moveKeys mstable dstable leftover t p)[k]? ≠ none := by
      rw [moveKeys, hget, hq]
      split <;> simp
    rw [foldl_cons]
    by_cases hrest : ∃ p' ∈ pairs, k ∈ movedKeys (mstable p'.1) (dstable p'.2) (leftover p'.2)
    · obtain ⟨p', hp', heq⟩ := ih ht' hrest
      exact ⟨p', mem_cons_of_mem p hp', heq⟩
    · have hnot : ∀ p' ∈ pairs, k ∉ movedKeys (mstable p'.1) (dstable p'.2) (leftover p'.2) :=
        fun p' hp' hk => hrest ⟨p', hp', hk⟩
      obtain ⟨p', hp', hk⟩ := h
      have hk' : k ∈ movedKeys (mstable p.1) (dstable p.2) (leftover p.2) := by
        rcases mem_cons.1 hp' with rfl | hp'
        · exact hk
        · exact absurd hk (hnot p' hp')
      refine ⟨p, mem_cons_self, ?_⟩
      rw [getElem?_foldl_moveKeys_of_notMem hnot, moveKeys, hget, if_pos hk', hq, Option.map_some]

end

theorem mem_movedKeys_copyInfo (info dinfo : SlabInfo) (leftover : ℕ → ℕ) (k : Key) :
    k ∈ movedKeys info (dinfo.copyInfo info) leftover ↔ info.HasKey k := by
  have hmetric : ∀ e ∈ info.slots.zipIdx,
      metricAt (dinfo.copyInfo info) leftover e.2 = info.getSinfoMetricID e.1 := by
    intro e he
    have hget : info.slots[e.2]? = some e.1 := mk_mem_zipIdx_iff_getElem?.1 he
    simp only [metricAt, SlabInfo.copyInfo, hget]
    rfl
  rw [movedKeys, mem_flatMap]
  constructor
  · rintro ⟨e, he, hk⟩
    rw [hmetric e he] at hk
    have hslot : e.1 ∈ info.slots := mem_of_getElem? (mk_mem_zipIdx_iff_getElem?.1 he)
    simp only [mem_cons, not_mem_nil, or_false] at hk
    exact ⟨e.1, hslot, hk.imp Eq.symm Eq.symm⟩
  · rintro ⟨slot, hslot, hk⟩
    obtain ⟨i, hi⟩ := getElem?_of_mem hslot
    have he : (slot, i) ∈ info.slots.zipIdx := mk_mem_zipIdx_iff_getElem?.2 hi
    refine ⟨(slot, i), he, ?_⟩
    rw [hmetric _ he]
    simp only [mem_cons, not_mem_nil, or_false]
    exact hk.imp Eq.symm Eq.symm

/-! ## The state after a batch -/

variable (cfg : Setting) (s : TreeSeries)

/-- The pairs of slabs for which `CopyInfo` is called. -/
def eagerCopied : List (ℕ × ℕ) :=
  ((findSinfoSubSequence (sortBySlabId (s.batchFull cfg))
    ((s.batchFull cfg).length - 1)).flatMap runIndices).map
      (pairAt (sortBySlabId (s.batchFull cfg)) (s.eagerDisk cfg))

def eagerWritten : List (ℕ × ℕ) :=
  (findSinfoSubSequence (sortBySlabId (s.batchFull cfg)) ((s.batchFull cfg).length - 1)).flatMap
    (eagerPairs (sortBySlabId (s.batchFull cfg)) (s.eagerDisk cfg))

def eagerTable : ℕ → SlabInfo :=
  describePairs s.dstable s.mstable (s.eagerCopied cfg)

def eagerBatch : List (ℕ × ℕ) :=
  (sortBySlabId (s.batchFull cfg)).zip (s.eagerDisk cfg)

section

variable {cfg : Setting} {s : TreeSeries} (leftover : ℕ → ℕ → ℕ)

theorem dslab_writeEager : (s.writeEager cfg leftover).dslab =
    apply s.dslab ((s.eagerWritten cfg).map fun p => (p.2, s.mslab p.1)) := by
  simp only [writeEager]
  rw [foldl_moveSlab_eq, foldl_eagerRun]
  rfl

theorem dstable_writeEager : (s.writeEager cfg leftover).dstable = s.eagerTable cfg := by
  simp only [writeEager]
  rw [foldl_moveSlab_eq, foldl_eagerRun]
  rfl

theorem massTree_writeEager (hnd : ((s.eagerBatch cfg).map Prod.fst).Nodup) :
    (s.writeEager cfg leftover).massTree =
      (s.eagerBatch cfg).foldl (moveKeys s.mstable (s.eagerTable cfg) leftover) s.massTree := by
  simp only [writeEager]
  rw [← eagerBatch, massTree_foldl_moveSlab leftover _ hnd, foldl_eagerRun]
  rfl

end

/-- The state `s'` after a batch: the memory slabs that are described by a disk slab are on
that slab, and so are their keys, and no other disk slab is touched. -/
structure EagerRight (cfg : Setting) (s s' : TreeSeries) : Prop where
  bytes : ∀ p ∈ s.eagerCopied cfg, s'.dslab p.2 = s.mslab p.1
  keys : ∀ p ∈ s.eagerCopied cfg, ∀ k, (s.mstable p.1).HasKey k →
    s.massTree[k]? = some (.mem p.1) → s'.massTree[k]? = some (.disk p.2)
  frame : ∀ d, d ∉ s.eagerDisk cfg → s'.dslab d = s.dslab d ∧ s'.dstable d = s.dstable d

structure EagerFits (cfg : Setting) (leftover : ℕ → ℕ → ℕ) (s : TreeSeries) : Prop where
  consecutive : ∀ run ∈ findSinfoSubSequence (sortBySlabId (s.batchFull cfg))
    ((s.batchFull cfg).length - 1), endsMatch (s.eagerDisk cfg) run = true →
      ∀ i ≤ run.2 - run.1,
        (s.eagerDisk cfg).getD (run.1 + i) 0 = (s.eagerDisk cfg).getD run.1 0 + i
  last : ∀ pre p post, s.eagerBatch cfg = pre ++ p :: post → p ∈ s.eagerCopied cfg →
    ∀ k, (s.mstable p.1).HasKey k → s.massTree[k]? = some (.mem p.1) →
      ∀ p' ∈ post, k ∉ movedKeys (s.mstable p'.1) (s.eagerTable cfg p'.2) (leftover p'.2)

section

variable {cfg : Setting} {s : TreeSeries} {leftover : ℕ → ℕ → ℕ}
  (hne : s.batchFull cfg ≠ []) (hlen : (s.batchFull cfg).length = (s.eagerDisk cfg).length)
  (hfull : s.fullMsinfoq.Nodup) (hdisk : s.freeDsinfoq.Nodup)

include hne hlen in
theorem eagerCopied_eq : s.eagerCopied cfg =
    (s.eagerBatch cfg).take (numWritten (sortBySlabId (s.batchFull cfg))) := by
  have hms : sortBySlabId (s.batchFull cfg) ≠ [] := by
    rw [← length_pos_iff, length_sortBySlabId]
    exact length_pos_iff.2 hne
  rw [eagerCopied, ← length_sortBySlabId (s.batchFull cfg), flatMap_findSinfoSubSequence hms,
    map_pairAt_range (by rw [length_sortBySlabId, hlen]) (numWritten_le _)]
  rfl

include hlen hfull in
theorem nodup_map_fst_eagerBatch : ((s.eagerBatch cfg).map Prod.fst).Nodup := by
  rw [eagerBatch, map_fst_zip (by rw [length_sortBySlabId, hlen])]
  exact (sortBySlabId_perm _).nodup_iff.2 (hfull.sublist (take_sublist _ _))

include hlen in
theorem map_snd_eagerBatch : (s.eagerBatch cfg).map Prod.snd = s.eagerDisk cfg :=
  map_snd_zip (by rw [length_sortBySlabId, hlen])

include hlen hdisk in
theorem nodup_map_snd_eagerBatch : ((s.eagerBatch cfg).map Prod.snd).Nodup := by
  rw [map_snd_eagerBatch hlen]
  exact hdisk.sublist (take_sublist _ _)

include hne hlen hdisk in
theorem nodup_map_snd_eagerCopied : ((s.eagerCopied cfg).map Prod.snd).Nodup := by
  rw [eagerCopied_eq hne hlen]
  exact (nodup_map_snd_eagerBatch hlen hdisk).sublist ((take_sublist _ _).map _)

variable {p : ℕ × ℕ} {i : ℕ}

include hne hlen in
theorem mem_eagerBatch (hp : p ∈ s.eagerCopied cfg) : p ∈ s.eagerBatch cfg := by
  rw [eagerCopied_eq hne hlen] at hp
  exact mem_of_mem_take hp

include hne hlen hdisk in
theorem mem_movedKeys_of_copied (hp : p ∈ s.eagerCopied cfg) (k : Key) :
    k ∈ movedKeys (s.mstable p.1) (s.eagerTable cfg p.2) (leftover p.2) ↔
      (s.mstable p.1).HasKey k := by
  rw [eagerTable, describePairs_of_mem (nodup_map_snd_eagerCopied hne hlen hdisk) hp]
  exact mem_movedKeys_copyInfo _ _ _ k

theorem eagerWritten_eq
    (h : ∀ run ∈ findSinfoSubSequence (sortBySlabId (s.batchFull cfg))
      ((s.batchFull cfg).length - 1), endsMatch (s.eagerDisk cfg) run = true →
        ∀ i ≤ run.2 - run.1,
          (s.eagerDisk cfg).getD (run.1 + i) 0 = (s.eagerDisk cfg).getD run.1 0 + i) :
    s.eagerWritten cfg = s.eagerCopied cfg := by
  rw [eagerWritten, eagerCopied, map_flatMap]
  refine flatMap_congr fun run hrun => ?_
  unfold eagerPairs
  split_ifs with hends
  · exact (map_pairAt_runIndices (isRun_findSinfoSubSequence run hrun) (h run hrun hends)).symm
  · rfl

theorem getD_inj {q : List ℕ} (hq : q.Nodup) {j : ℕ} (hi : i < q.length) (hj : j < q.length)
    (h : q.getD i 0 = q.getD j 0) : i = j := by
  rw [getD_eq_getElem _ _ hi, getD_eq_getElem _ _ hj] at h
  exact (hq.getElem_inj_iff).1 h

include hne hfull in
theorem eq_of_mem_eagerWritten {run : ℕ × ℕ} (hrun : run ∈ findSinfoSubSequence (sortBySlabId
      (s.batchFull cfg)) ((s.batchFull cfg).length - 1))
    (hends : endsMatch (s.eagerDisk cfg) run = true) {d : ℕ} (hi : i ≤ run.2 - run.1)
    (hmem : ((sortBySlabId (s.batchFull cfg)).getD (run.1 + i) 0, d) ∈ s.eagerWritten cfg) :
    d = (s.eagerDisk cfg).getD run.1 0 + i := by
  rw [eagerWritten] at hmem
  generalize hms : sortBySlabId (s.batchFull cfg) = ms at hrun hmem
  have hlength : (s.batchFull cfg).length = ms.length := by rw [← hms, length_sortBySlabId]
  have hpos := length_pos_iff.2 hne
  rw [hlength] at hrun hmem hpos
  have hnodup : ms.Nodup :=
    hms ▸ (sortBySlabId_perm _).nodup_iff.2 (hfull.sublist (take_sublist _ _))
  have hall := flatMap_findSinfoSubSequence (length_pos_iff.1 hpos)
  have hisRun : ∀ run ∈ findSinfoSubSequence ms (ms.length - 1), IsRun ms (ms.length - 1) run :=
    isRun_findSinfoSubSequence
  -- The run that holds an index is the only one, and every index of a run is in the batch.
  have honly : ∀ run' ∈ findSinfoSubSequence ms (ms.length - 1), ∀ j ∈ runIndices run',
      ms.getD j 0 = ms.getD (run.1 + i) 0 → j = run.1 + i ∧ run' = run := by
    intro run' hrun' j hj heq
    have hle := (hisRun run hrun).le
    have hlast := (hisRun run hrun).le_count
    have hlast' := (hisRun run' hrun').le_count
    have hj' := mem_runIndices.1 hj
    have hindex := getD_inj hnodup (by omega) (by omega) heq
    refine ⟨hindex, eq_of_mem_runIndices (fun r hr => (hisRun r hr).le) hall hrun' hrun hj ?_⟩
    rw [hindex, mem_runIndices]
    omega
  obtain ⟨run', hrun', hmem⟩ := mem_flatMap.1 hmem
  unfold eagerPairs at hmem
  split_ifs at hmem with hends'
  · obtain ⟨i', hi', heq⟩ := mem_map.1 hmem
    obtain ⟨hm, hd⟩ := Prod.mk.inj heq
    have hle' := (hisRun run' hrun').le
    rw [mem_range] at hi'
    have hadj := getD_add_of_adjacent (a := run'.1) (n := run'.2 - run'.1)
      (fun j hj hlt => (hisRun run' hrun').adjacent j hj (by omega)) i' (by omega)
    obtain ⟨hindex, rfl⟩ := honly run' hrun' (run'.1 + i') (mem_runIndices.2 (by omega))
      (hadj.trans hm)
    rw [← hd, Nat.add_left_cancel hindex]
  · obtain ⟨j, hj, heq⟩ := mem_map.1 hmem
    obtain ⟨-, rfl⟩ := honly run' hrun' j hj (Prod.mk.inj heq).1
    exact absurd hends hends'

include hne hfull in
theorem consecutive_of_bytes (h : ∀ p ∈ s.eagerCopied cfg, apply (fun _ _ => ⟨0, []⟩)
      ((s.eagerWritten cfg).map fun p => (p.2, fun _ : ℕ => (⟨p.1 + 1, []⟩ : Item))) p.2 = fun _ =>
      ⟨p.1 + 1, []⟩) {run : ℕ × ℕ} (hrun : run ∈ findSinfoSubSequence (sortBySlabId (s.batchFull
      cfg)) ((s.batchFull cfg).length - 1)) (hends : endsMatch (s.eagerDisk cfg) run = true)
    (hi : i ≤ run.2 - run.1) :
    (s.eagerDisk cfg).getD (run.1 + i) 0 = (s.eagerDisk cfg).getD run.1 0 + i := by
  have hle := (isRun_findSinfoSubSequence run hrun).le
  have hcopied : pairAt (sortBySlabId (s.batchFull cfg)) (s.eagerDisk cfg) (run.1 + i) ∈
      s.eagerCopied cfg :=
    mem_map_of_mem (mem_flatMap.2 ⟨run, hrun, mem_runIndices.2 (by omega)⟩)
  have hslab := h _ hcopied
  rcases apply_eq_or_mem (fun _ _ => (⟨0, []⟩ : Item)) ((s.eagerWritten cfg).map fun p =>
    (p.2, fun _ : ℕ => (⟨p.1 + 1, []⟩ : Item))) _ with hold | hmem
  · rw [hslab] at hold
    have hitem := congrArg Item.timestamp (congrFun hold 0)
    simp at hitem
  · rw [hslab] at hmem
    obtain ⟨p, hp, heq⟩ := mem_map.1 hmem
    obtain ⟨hd, hm⟩ := Prod.mk.inj heq
    have hitem := congrArg Item.timestamp (congrFun hm 0)
    obtain rfl : p = pairAt (sortBySlabId (s.batchFull cfg)) (s.eagerDisk cfg) (run.1 + i) :=
      Prod.ext (Nat.succ.inj hitem) hd
    exact eq_of_mem_eagerWritten hne hfull hrun hends hi hp

theorem getElem?_foldl_moveKeys_ne_none (mstable dstable : ℕ → SlabInfo)
    (leftover : ℕ → ℕ → ℕ) (pairs : List (ℕ × ℕ)) {t : MassTree} {k : Key} (ht : t[k]? ≠ none) :
    (pairs.foldl (moveKeys mstable dstable leftover) t)[k]? ≠ none := by
  by_cases h : ∃ p ∈ pairs, k ∈ movedKeys (mstable p.1) (dstable p.2) (leftover p.2)
  · obtain ⟨p, -, heq⟩ := getElem?_foldl_moveKeys_of_mem ht h
    rw [heq]
    nofun
  · rwa [getElem?_foldl_moveKeys_of_notMem fun p hp hk => h ⟨p, hp, hk⟩]

include hne hlen hfull hdisk in
theorem EagerFits.right (h : s.EagerFits cfg leftover) :
    EagerRight cfg s (s.writeEager cfg leftover) := by
  have hwritten := eagerWritten_eq h.consecutive
  have hsnd := nodup_map_snd_eagerCopied hne hlen hdisk
  have houtside : ∀ d, d ∉ s.eagerDisk cfg → d ∉ (s.eagerCopied cfg).map Prod.snd := by
    intro d hd hmem
    obtain ⟨p, hp, rfl⟩ := mem_map.1 hmem
    exact hd (map_snd_eagerBatch hlen ▸ mem_map_of_mem (mem_eagerBatch hne hlen hp))
  refine ⟨fun p hp => ?_, fun p hp k hkey htree => ?_, fun d hd => ⟨?_, ?_⟩⟩
  · rw [dslab_writeEager, hwritten]
    exact apply_of_mem (by rwa [map_fst_writes]) (mem_map.2 ⟨p, hp, rfl⟩)
  · obtain ⟨pre, post, hsplit⟩ := append_of_mem (mem_eagerBatch hne hlen hp)
    rw [massTree_writeEager leftover (nodup_map_fst_eagerBatch hlen hfull), hsplit,
      foldl_append, foldl_cons,
      getElem?_foldl_moveKeys_of_notMem (h.last pre p post hsplit hp k hkey htree), moveKeys,
      MassTree.getElem?_updateAll, if_pos ((mem_movedKeys_of_copied hne hlen hdisk hp k).2 hkey)]
    obtain ⟨q, hq⟩ := Option.ne_none_iff_exists'.1 (getElem?_foldl_moveKeys_ne_none
      s.mstable (s.eagerTable cfg) leftover pre (t := s.massTree) (k := k)
      (by rw [htree]; nofun))
    rw [hq, Option.map_some]
  · rw [dslab_writeEager, hwritten]
    exact apply_of_notMem (by rw [map_fst_writes]; exact houtside d hd)
  · rw [dstable_writeEager, eagerTable, describePairs_of_notMem (houtside d hd)]

include hlen hfull hdisk in
theorem EagerRight.last (h : EagerRight cfg s (s.writeEager cfg leftover)) {pre post : List (ℕ × ℕ)}
    {p' : ℕ × ℕ} (hsplit : s.eagerBatch cfg = pre ++ p :: post) (hp : p ∈ s.eagerCopied cfg)
    {k : Key} (hkey : (s.mstable p.1).HasKey k) (htree : s.massTree[k]? = some (.mem p.1))
    (hp' : p' ∈ post) : k ∉ movedKeys (s.mstable p'.1) (s.eagerTable cfg p'.2) (leftover p'.2) := by
  intro hmoved
  have hkeys := h.keys p hp k hkey htree
  rw [massTree_writeEager leftover (nodup_map_fst_eagerBatch hlen hfull), hsplit,
    append_cons, foldl_append] at hkeys
  have hsome := getElem?_foldl_moveKeys_ne_none s.mstable (s.eagerTable cfg) leftover (pre ++ [p]) (t := s.massTree) (k := k)
    (by rw [htree]; nofun)
  obtain ⟨p'', hp'', heq⟩ := getElem?_foldl_moveKeys_of_mem hsome ⟨p', hp', hmoved⟩
  rw [hkeys, Option.some.injEq, Place.disk.injEq] at heq
  have hsnd := nodup_map_snd_eagerBatch hlen hdisk
  rw [hsplit, map_append, map_cons] at hsnd
  exact (nodup_cons.1 (List.nodup_append.1 hsnd).2.1).1 (heq ▸ mem_map_of_mem hp'')

include hne hlen hfull hdisk in
theorem writeEager_right_iff :
    (∀ mslab dslab, EagerRight cfg { s with mslab := mslab, dslab := dslab }
      (writeEager cfg leftover { s with mslab := mslab, dslab := dslab })) ↔
      s.EagerFits cfg leftover := by
  constructor
  · intro h
    refine ⟨fun run hrun hends i hi => consecutive_of_bytes hne hfull (fun p hp => ?_) hrun hends hi,
      fun pre p post hsplit hp k hkey htree p' hp' =>
        (h s.mslab s.dslab).last hlen hfull hdisk hsplit hp hkey htree hp'⟩
    have hbytes := (h (fun m _ => ⟨m + 1, []⟩) (fun _ _ => ⟨0, []⟩)).bytes p hp
    rwa [dslab_writeEager] at hbytes
  · intro hfits mslab dslab
    exact EagerFits.right hne hlen hfull hdisk ⟨hfits.consecutive, hfits.last⟩

end

theorem optBatchWrite_cases {cfg : Setting} {leftover : ℕ → ℕ → ℕ} {s s' : TreeSeries}
    (h : s.optBatchWrite cfg leftover = .ok (true, s')) :
    s.eagerSkips cfg = false ∧ cfg.writeBatchSize ≠ 0 ∧ s.eagerLacksDisk cfg = false ∧
      s' = s.writeEager cfg leftover := by
  unfold optBatchWrite at h
  split_ifs at h with hskip hsize hlack
  · cases h
  · cases h
  · cases h
    exact ⟨by simpa using hskip, hsize, by simpa using hlack, rfl⟩

/-- `OptBatchWrite` writes each slab to its own place, whatever the slabs hold, if and only if
it writes nothing or the batch fits. -/
theorem optBatchWrite_right_iff (cfg : Setting) (leftover : ℕ → ℕ → ℕ) (s : TreeSeries)
    (hfull : s.fullMsinfoq.Nodup) (hdisk : s.freeDsinfoq.Nodup) :
    (∀ mslab dslab s', optBatchWrite cfg leftover { s with mslab := mslab, dslab := dslab } =
        .ok (true, s') → EagerRight cfg { s with mslab := mslab, dslab := dslab } s') ↔
      s.eagerSkips cfg = true ∨ cfg.writeBatchSize = 0 ∨ s.eagerLacksDisk cfg = true ∨
        s.EagerFits cfg leftover := by
  by_cases hskip : s.eagerSkips cfg = true
  · refine iff_of_true (fun mslab dslab s' h => ?_) (Or.inl hskip)
    exact absurd hskip (by rw [show s.eagerSkips cfg = false from (optBatchWrite_cases h).1]; simp)
  by_cases hsize : cfg.writeBatchSize = 0
  · exact iff_of_true (fun mslab dslab s' h => absurd hsize (optBatchWrite_cases h).2.1)
      (Or.inr (Or.inl hsize))
  by_cases hlack : s.eagerLacksDisk cfg = true
  · refine iff_of_true (fun mslab dslab s' h => ?_) (Or.inr (Or.inr (Or.inl hlack)))
    exact absurd hlack
      (by rw [show s.eagerLacksDisk cfg = false from (optBatchWrite_cases h).2.2.1]; simp)
  have hne : s.batchFull cfg ≠ [] := by
    have hfullne : s.fullMsinfoq ≠ [] := by
      intro hnil
      simp [eagerSkips, hnil] at hskip
    simp [batchFull, hfullne, hsize]
  have hlen : (s.batchFull cfg).length = (s.eagerDisk cfg).length := by
    simp only [eagerLacksDisk, decide_eq_true_eq, not_lt] at hlack
    rw [eagerDisk, length_take, Nat.min_eq_left hlack]
  have hok : ∀ mslab dslab, optBatchWrite cfg leftover { s with mslab := mslab, dslab := dslab } =
      .ok (true, writeEager cfg leftover { s with mslab := mslab, dslab := dslab }) := by
    intro mslab dslab
    unfold optBatchWrite
    rw [if_neg (show ¬ eagerSkips cfg { s with mslab := mslab, dslab := dslab } = true from hskip),
      if_neg hsize,
      if_neg (show ¬ eagerLacksDisk cfg { s with mslab := mslab, dslab := dslab } = true from hlack)]
    rfl
  rw [← writeEager_right_iff hne hlen hfull hdisk]
  constructor
  · intro h
    exact Or.inr (Or.inr (Or.inr fun mslab dslab => h mslab dslab _ (hok mslab dslab)))
  · intro h mslab dslab s' hs'
    rw [hok, Except.ok.injEq, Prod.mk.injEq] at hs'
    rw [← hs'.2]
    exact ((h.resolve_left hskip).resolve_left hsize).resolve_left hlack mslab dslab

def eagerStore (ds : List ℕ) : TreeSeries :=
  { initStable Setting.threeSlabs (fun m _ => ⟨m, []⟩) (fun _ _ => ⟨100, []⟩) with
    mstable := update (fun _ => SlabInfo.empty) 0
      { SlabInfo.empty with slots := [⟨0, 0, 10, 20⟩], nalloc := 16 }
    massTree := ((∅ : MassTree).insertMT ⟨0, 0, 10⟩ (.mem 0)).insertMT ⟨0, 0, 20⟩ (.mem 0)
    freeMsinfoq := []
    fullMsinfoq := [2, 0, 1]
    freeDsinfoq := ds
    nfullMsinfoq := 3
    nfreeDsinfoq := 3 }

/-- Disk slabs in ascending order. -/
theorem optBatchWrite_right_ascending :
    (eagerStore [4, 5, 6]).eagerBatch Setting.threeSlabs = [(0, 4), (1, 5), (2, 6)] ∧
    ∀ mslab dslab s', optBatchWrite Setting.threeSlabs (fun _ _ => 0)
        { eagerStore [4, 5, 6] with mslab := mslab, dslab := dslab } = .ok (true, s') →
      EagerRight Setting.threeSlabs { eagerStore [4, 5, 6] with mslab := mslab, dslab := dslab } s' := by
  refine ⟨by decide, (optBatchWrite_right_iff Setting.threeSlabs (fun _ _ => 0) (eagerStore [4, 5, 6])
    (by decide) (by decide)).2 (Or.inr (Or.inr (Or.inr ⟨by decide, ?_⟩)))⟩
  intro pre p post hsplit _ k _ _ p' hp'
  have hpairs : ((eagerStore [4, 5, 6]).eagerBatch Setting.threeSlabs).Pairwise
      fun a b => a.1 < b.1 := by decide
  rw [hsplit] at hpairs
  have hlt := rel_of_pairwise_cons (pairwise_append.1 hpairs).2.1 hp'
  have hslots : ((eagerStore [4, 5, 6]).mstable p'.1).slots = [] := by
    simp only [eagerStore, update_of_ne (Nat.ne_of_gt (Nat.zero_lt_of_lt hlt))]
    rfl
  simp [movedKeys, hslots]

/-- Disk slabs 0, 5 and 2: the ends of the run are two apart, so that disk slabs 0, 1 and 2
are written. Slab 5 describes memory slab 1 and does not hold it. -/
theorem optBatchWrite_wrong_place :
    ∃ s', optBatchWrite Setting.threeSlabs (fun _ _ => 0) (eagerStore [0, 5, 2]) = .ok (true, s') ∧
      ¬ EagerRight Setting.threeSlabs (eagerStore [0, 5, 2]) s' := by
  have hview : (optBatchWrite Setting.threeSlabs (fun _ _ => 0) (eagerStore [0, 5, 2])).toOption.map
      (fun p => (p.1, (p.2.dslab 5 0).timestamp)) = some (true, 100) := by decide +kernel
  obtain ⟨⟨b, s'⟩, hok, hpair⟩ := Option.map_eq_some_iff.1 hview
  obtain ⟨rfl, htime⟩ := Prod.mk.inj hpair
  refine ⟨s', Run.eq_ok_of_toOption hok, fun h => ?_⟩
  have hbytes := h.bytes (1, 5) (by decide)
  rw [hbytes] at htime
  exact absurd htime (by decide)

end TreeSeries

end PromTCS
