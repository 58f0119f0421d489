import PromTCS.Lib.TieredIndex
import PromTCS.TreeSeries.Lifecycle

/-!
# The keys of the slabs

Every slot of a slab has a start key and an end key. The store, seen through the
keys its slabs describe, is an index over two tiers: a put changes the keys of one
memory slab, the reuse of a memory slab moves its keys to the disk slab it was
written to, and a batch write empties and fills disk slabs.
-/

namespace PromTCS

open List Function TieredIndex

def SlabInfo.HasKey (info : SlabInfo) (k : Key) : Prop :=
  ∃ slot ∈ info.slots, info.startKey slot = k ∨ info.endKey slot = k

theorem SlabInfo.hasKey_congr {info info' : SlabInfo} (hcid : info.cid = info'.cid)
    (hslots : info.slots = info'.slots) (k : Key) : info.HasKey k ↔ info'.HasKey k := by
  simp only [HasKey, startKey, endKey, getSinfoSourceID, getSinfoMetricID, hcid, hslots]

theorem SlabInfo.not_hasKey {info : SlabInfo} (h : info.slots = []) (k : Key) :
    ¬ info.HasKey k := by
  rintro ⟨slot, hslot, -⟩
  rw [h] at hslot
  cases hslot

namespace MassTree

theorem getElem?_foldl_updateMT (info : SlabInfo) (p : Place) (slots : List Slot)
    (t : MassTree) (k : Key) :
    (slots.foldl (fun t slot => (t.updateMT (info.startKey slot) p).updateMT
        (info.endKey slot) p) t)[k]? =
      if ∃ slot ∈ slots, info.startKey slot = k ∨ info.endKey slot = k then
        t[k]?.map fun _ => p else t[k]? := by
  induction slots generalizing t with
  | nil => simp
  | cons slot slots ih =>
    rw [foldl_cons, ih, getElem?_updateMT, getElem?_updateMT]
    by_cases hs : info.startKey slot = k <;> by_cases he : info.endKey slot = k <;>
      by_cases hrest : ∃ slot ∈ slots, info.startKey slot = k ∨ info.endKey slot = k <;>
      simp [hs, he, hrest, comp_def]

open scoped Classical in
theorem getElem?_updateSlots (t : MassTree) (info : SlabInfo) (p : Place) (k : Key) :
    (t.updateSlots info p)[k]? = if info.HasKey k then t[k]?.map fun _ => p else t[k]? := by
  rw [updateSlots, getElem?_foldl_updateMT]
  exact if_congr Iff.rfl rfl rfl

theorem getElem?_foldl_removeMT (info : SlabInfo) (slots : List Slot) (t : MassTree) (k : Key) :
    (slots.foldl (fun t slot => (t.removeMT (info.startKey slot)).removeMT
        (info.endKey slot)) t)[k]? =
      if ∃ slot ∈ slots, info.startKey slot = k ∨ info.endKey slot = k then none
      else t[k]? := by
  induction slots generalizing t with
  | nil => simp
  | cons slot slots ih =>
    rw [foldl_cons, ih, getElem?_removeMT, getElem?_removeMT]
    by_cases hs : info.startKey slot = k <;> by_cases he : info.endKey slot = k <;>
      by_cases hrest : ∃ slot ∈ slots, info.startKey slot = k ∨ info.endKey slot = k <;>
      simp [hs, he, hrest]

open scoped Classical in
theorem getElem?_removeSlots (t : MassTree) (info : SlabInfo) (k : Key) :
    (t.removeSlots info)[k]? = if info.HasKey k then none else t[k]? := by
  rw [removeSlots, getElem?_foldl_removeMT]
  exact if_congr Iff.rfl rfl rfl

end MassTree

/-- A pointer to a `SlabInfo` as a place of one of the two tiers. -/
def Place.toSum : Place → ℕ ⊕ ℕ
  | .mem m => .inl m
  | .disk d => .inr d

namespace TreeSeries

variable (s : TreeSeries)

/-- What a pointer to a `SlabInfo` points at. -/
def sinfo : Place → SlabInfo
  | .mem m => s.mstable m
  | .disk d => s.dstable d

/-- `GetMemSlab` or `ReadDiskSlab`. -/
def slabAt : Place → Slab
  | .mem m => s.mslab m
  | .disk d => s.dslab d

def tiered : TieredIndex Key ℕ ℕ where
  memKeys m := {k | (s.mstable m).HasKey k}
  diskKeys d := {k | (s.dstable d).HasKey k}
  index k := s.massTree[k]?.map Place.toSum
  pending m d := (m, d) ∈ s.memEvictSinfoq
  live := {d | d ∈ s.usedDsinfoq ∨ d ∈ s.diskEvictSinfoq}

theorem mem_keys_tiered (p : Place) (k : Key) :
    k ∈ s.tiered.keys p.toSum ↔ (s.sinfo p).HasKey k := by
  cases p <;> rfl

theorem index_tiered_eq_some (k : Key) (p : Place) :
    s.tiered.index k = some p.toSum ↔ s.massTree[k]? = some p := by
  cases p <;> cases h : s.massTree[k]? with
  | none => simp [tiered, h]
  | some q => cases q <;> simp [tiered, h, Place.toSum]

theorem index_tiered_eq_none (k : Key) :
    s.tiered.index k = none ↔ s.massTree[k]? = none := by
  simp [tiered]

/-! ## Reuse of a memory slab -/

variable {s : TreeSeries} {slot : Slot} {slots : List Slot} {j t : ℕ} {info : SlabInfo}

theorem tiered_reuse {m d : ℕ} {rest : List (ℕ × ℕ)} (hevict : s.memEvictSinfoq = (m, d) :: rest)
    (hm : m ∉ rest.map Prod.fst) {s₁ : TreeSeries} (hmem : s₁.memEvictSinfoq = rest)
    (htree : s₁.massTree = s.massTree.updateSlots (s.mstable m) (.disk d))
    (hself : (s₁.mstable m).slots = []) (hother : ∀ m' ≠ m, s₁.mstable m' = s.mstable m')
    (hdisk : s₁.dstable = s.dstable) (hused : s₁.usedDsinfoq = s.usedDsinfoq)
    (hdevict : s₁.diskEvictSinfoq = s.diskEvictSinfoq) : s₁.tiered = s.tiered.reuse m d := by
  ext1
  · funext m'
    by_cases hm' : m' = m
    · subst hm'
      ext k
      simp [tiered, reuse, SlabInfo.not_hasKey hself]
    · simp [tiered, reuse, hm', hother m' hm']
  · simp [tiered, reuse, hdisk]
  · funext k
    by_cases hk : (s.mstable m).HasKey k <;>
      simp [tiered, reuse, htree, MassTree.getElem?_updateSlots, hk,
        comp_def, Place.toSum]
  · funext m' d'
    simp only [tiered, reuse, hmem, hevict, mem_cons, Prod.mk.injEq]
    refine propext ⟨fun h => ⟨Or.inr h, ?_⟩, fun h => h.1.resolve_left fun he => h.2 he.1⟩
    rintro rfl
    exact hm (mem_map.2 ⟨_, h, rfl⟩)
  · simp [tiered, reuse, hused, hdevict]

/-! ## Put -/

structure SlotsOk (slots : List Slot) : Prop where
  distinct : ∀ {i j : ℕ} {a b : Slot}, slots[i]? = some a → slots[j]? = some b →
    a.sourceId = b.sourceId → a.metricId = b.metricId → i = j
  increasing : ∀ slot ∈ slots, slot.startTime < slot.endTime

theorem slotsOk_nil : SlotsOk [] :=
  ⟨fun hi => by simp at hi, fun slot hslot => by simp at hslot⟩

theorem exists_of_getElem?_set {i : ℕ} {a : Slot} (hslot : slots[j]? = some slot)
    (ha : (slots.set j { slot with endTime := t })[i]? = some a) :
    ∃ b, slots[i]? = some b ∧ a.sourceId = b.sourceId ∧ a.metricId = b.metricId ∧
      a.startTime = b.startTime ∧ (a = b ∨ (b = slot ∧ a.endTime = t)) := by
  by_cases hij : i = j
  · subst hij
    rw [getElem?_set_self (List.getElem?_eq_some_iff.1 hslot).1, Option.some.injEq] at ha
    subst ha
    exact ⟨slot, hslot, rfl, rfl, rfl, Or.inr ⟨rfl, rfl⟩⟩
  · rw [getElem?_set_ne (Ne.symm hij)] at ha
    exact ⟨a, ha, rfl, rfl, rfl, Or.inl rfl⟩

theorem SlotsOk.set (hok : SlotsOk slots) (hslot : slots[j]? = some slot) (ht : slot.endTime < t) :
    SlotsOk (slots.set j { slot with endTime := t }) where
  distinct {i i' a b} hi hi' hsource hmetric := by
    obtain ⟨a', ha', hsa, hma, -⟩ := exists_of_getElem?_set hslot hi
    obtain ⟨b', hb', hsb, hmb, -⟩ := exists_of_getElem?_set hslot hi'
    exact hok.distinct ha' hb' (hsa ▸ hsb ▸ hsource) (hma ▸ hmb ▸ hmetric)
  increasing a ha := by
    obtain ⟨i, hi⟩ := mem_iff_getElem?.1 ha
    obtain ⟨b, hb, -, -, hstart, rfl | ⟨rfl, hend⟩⟩ := exists_of_getElem?_set hslot hi
    · exact hok.increasing a (mem_of_getElem? hb)
    · have := hok.increasing b (mem_of_getElem? hb)
      omega

theorem SlotsOk.append (hok : SlotsOk slots)
    (hnew : ∀ a ∈ slots, ¬ (a.sourceId = slot.sourceId ∧ a.metricId = slot.metricId))
    (htime : slot.startTime < slot.endTime) : SlotsOk (slots ++ [slot]) where
  distinct {i j a b} hi hj hsource hmetric := by
    rw [getElem?_append] at hi hj
    split_ifs at hi hj with hlti hltj hltj
    · exact hok.distinct hi hj hsource hmetric
    · obtain rfl := mem_singleton.1 (mem_of_getElem? hj)
      exact absurd ⟨hsource, hmetric⟩ (hnew a (mem_of_getElem? hi))
    · obtain rfl := mem_singleton.1 (mem_of_getElem? hi)
      exact absurd ⟨hsource.symm, hmetric.symm⟩ (hnew b (mem_of_getElem? hj))
    · have hi' := (List.getElem?_eq_some_iff.1 hi).1
      have hj' := (List.getElem?_eq_some_iff.1 hj).1
      simp only [length_singleton] at hi' hj'
      omega
  increasing a ha := by
    rcases mem_append.1 ha with ha | ha
    · exact hok.increasing a ha
    · rwa [mem_singleton.1 ha]

theorem getSinfo_inj {a b : Slot} (hsource : info.getSinfoSourceID a = info.getSinfoSourceID b)
    (hmetric : info.getSinfoMetricID a = info.getSinfoMetricID b) :
    a.sourceId = b.sourceId ∧ a.metricId = b.metricId := by
  simp only [SlabInfo.getSinfoSourceID, SlabInfo.getSinfoMetricID, cyNum, cxNum] at *
  omega

theorem hasKey_extend {info' : SlabInfo} (hok : SlotsOk info.slots)
    (hslot : info.slots[j]? = some slot) (hcid : info'.cid = info.cid)
    (hslots : info'.slots = info.slots.set j { slot with endTime := t }) (k : Key) :
    info'.HasKey k ↔ (info.HasKey k ∧ k ≠ info.endKey slot) ∨
      k = info.endKey { slot with endTime := t } := by
  have hlt : j < info.slots.length := (List.getElem?_eq_some_iff.1 hslot).1
  have hkeys : info'.HasKey k ↔ ({ info with slots := info'.slots } : SlabInfo).HasKey k :=
    @SlabInfo.hasKey_congr info' { info with slots := info'.slots } hcid rfl k
  rw [hkeys, hslots]
  constructor
  · rintro ⟨a, ha, hk⟩
    obtain ⟨i, hi⟩ := mem_iff_getElem?.1 ha
    simp only at hi
    by_cases hij : i = j
    · subst hij
      rw [getElem?_set_self hlt, Option.some.injEq] at hi
      subst hi
      rcases hk with hk | hk
      · refine Or.inl ⟨⟨slot, mem_of_getElem? hslot, Or.inl hk⟩, ?_⟩
        rintro rfl
        have htime : slot.startTime = slot.endTime := congrArg Key.time hk
        exact (hok.increasing slot (mem_of_getElem? hslot)).ne htime
      · exact Or.inr hk.symm
    · rw [getElem?_set_ne (Ne.symm hij)] at hi
      refine Or.inl ⟨⟨a, mem_of_getElem? hi, hk⟩, ?_⟩
      rintro rfl
      have hids := @getSinfo_inj info a slot
        (hk.elim (congrArg Key.sourceId) (congrArg Key.sourceId))
        (hk.elim (congrArg Key.metricId) (congrArg Key.metricId))
      exact hij (hok.distinct hi hslot hids.1 hids.2)
  · rintro (⟨⟨a, ha, hk⟩, hne⟩ | rfl)
    · obtain ⟨i, hi⟩ := mem_iff_getElem?.1 ha
      by_cases hij : i = j
      · subst hij
        obtain rfl : slot = a := Option.some.inj (hslot.symm.trans hi)
        have hstart : info.startKey slot = k := hk.resolve_right fun h => hne h.symm
        exact ⟨_, mem_of_getElem? (getElem?_set_self hlt), Or.inl hstart⟩
      · refine ⟨a, mem_of_getElem? (i := i) ?_, hk⟩
        rw [← hi]
        exact getElem?_set_ne (Ne.symm hij)
    · exact ⟨_, mem_of_getElem? (getElem?_set_self hlt), Or.inr rfl⟩

theorem hasKey_add {info' : SlabInfo} (hcid : info'.cid = info.cid)
    (hslots : info'.slots = info.slots ++ [slot]) (k : Key) :
    info'.HasKey k ↔ info.HasKey k ∨ k = info.startKey slot ∨ k = info.endKey slot := by
  have hkeys : info'.HasKey k ↔ ({ info with slots := info'.slots } : SlabInfo).HasKey k :=
    @SlabInfo.hasKey_congr info' { info with slots := info'.slots } hcid rfl k
  rw [hkeys, hslots]
  simp only [SlabInfo.HasKey, mem_append, mem_singleton]
  constructor
  · rintro ⟨a, ha | rfl, hk⟩
    · exact Or.inl ⟨a, ha, hk⟩
    · exact Or.inr (hk.imp Eq.symm Eq.symm)
  · rintro (⟨a, ha, hk⟩ | hk)
    · exact ⟨a, Or.inl ha, hk⟩
    · exact ⟨slot, Or.inr rfl, hk.imp Eq.symm Eq.symm⟩

open scoped Classical in
theorem tiered_put {s' : TreeSeries} {m : ℕ} {removed new : Set Key}
    (hkeys : ∀ k, (s'.mstable m).HasKey k ↔ ((s.mstable m).HasKey k ∧ k ∉ removed) ∨ k ∈ new)
      (hindex : ∀ k, s'.massTree[k]? = if k ∈ new then some (.mem m) else if k ∈ removed then none
      else s.massTree[k]?) (hother : ∀ m' ≠ m, s'.mstable m' = s.mstable m')
    (hdisk : s'.dstable = s.dstable) (hmem : s'.memEvictSinfoq = s.memEvictSinfoq)
    (hused : s'.usedDsinfoq = s.usedDsinfoq) (hdevict : s'.diskEvictSinfoq = s.diskEvictSinfoq) :
    s'.tiered = s.tiered.put m removed new := by
  ext1
  · funext m'
    by_cases hm' : m' = m
    · subst hm'
      ext k
      simp only [tiered, put, update_self]
      exact hkeys k
    · simp [tiered, put, hm', hother m' hm']
  · simp [tiered, put, hdisk]
  · funext k
    simp only [tiered, put, hindex]
    split_ifs <;> rfl
  · simp [tiered, put, hmem]
  · simp [tiered, put, hused, hdevict]

/-! ## Batch write -/

open scoped Classical in
theorem massTree_foldl_evictDisk {ds : List ℕ} (hnd : ds.Nodup) (k : Key) :
    (ds.foldl evictDisk s).massTree[k]? =
      if ∃ d ∈ ds, (s.dstable d).HasKey k then none else s.massTree[k]? := by
  induction ds generalizing s with
  | nil => simp
  | cons e ds ih =>
    rw [nodup_cons] at hnd
    have hsame : ∀ d ∈ ds, (s.evictDisk e).dstable d = s.dstable d := fun d hd =>
      update_of_ne (fun h : d = e => hnd.1 (h ▸ hd)) _ _
    have hrest : (∃ d ∈ ds, ((s.evictDisk e).dstable d).HasKey k) ↔
        ∃ d ∈ ds, (s.dstable d).HasKey k := by
      refine exists_congr fun d => and_congr_right fun hd => ?_
      rw [hsame d hd]
    have htree : (s.evictDisk e).massTree[k]? =
        if (s.dstable e).HasKey k then none else s.massTree[k]? :=
      MassTree.getElem?_removeSlots _ _ _
    rw [foldl_cons, ih hnd.2, htree]
    simp only [hrest, mem_cons, exists_eq_or_imp]
    by_cases he : (s.dstable e).HasKey k <;> simp [he]

section Batch

variable {cfg : Setting} {s : TreeSeries} (hs : s.Owned cfg) (hne : s.batchFull cfg ≠ [])
  (hlen : (s.batchFull cfg).length = (s.batchDisk cfg).length)
  {d m : ℕ}

theorem mem_batchEvicted (hd : d ∈ s.batchEvicted cfg) : d ∈ s.diskEvictSinfoq :=
  mem_of_mem_take hd

include hs in
theorem Owned.notMem_of_batchDisk (hd : d ∈ s.batchDisk cfg) :
    d ∉ s.usedDsinfoq ∧
      d ∉ s.diskEvictSinfoq.drop ((s.batchFull cfg).length - s.batchFree cfg) := by
  have hone := hs.diskCount_le_one d
  have hfree := (take_sublist (s.batchFree cfg) s.freeDsinfoq).count_le d
  have hevict := count_take_add_count_drop s.diskEvictSinfoq
    ((s.batchFull cfg).length - s.batchFree cfg) d
  have hpos := count_pos_iff.2 hd
  rw [batchDisk, batchEvicted, count_append] at hpos
  unfold diskCount at hone
  constructor
  · intro hused
    have := count_pos_iff.2 hused
    omega
  · intro hrest
    have := count_pos_iff.2 hrest
    omega

include hs in
theorem Owned.notMem_live_of_free (hd : d ∈ s.freeDsinfoq) : d ∉ s.tiered.live := by
  have hone := hs.diskCount_le_one d
  have hpos := count_pos_iff.2 hd
  unfold diskCount at hone
  rintro (hused | hevict)
  · have := count_pos_iff.2 hused
    omega
  · have := count_pos_iff.2 hevict
    omega

include hs in
theorem Owned.notMem_evict_of_full (hm : m ∈ s.fullMsinfoq) : (m, d) ∉ s.memEvictSinfoq := by
  intro hpair
  have hone := hs.memCount_le_one m
  have hpos := count_pos_iff.2 hm
  have hevict := count_pos_iff.2 (mem_map.2 ⟨_, hpair, rfl⟩ :
    m ∈ s.memEvictSinfoq.map Prod.fst)
  unfold memCount at hone
  omega

include hs in
theorem Owned.nodup_batchFull : (s.batchFull cfg).Nodup := by
  rw [nodup_iff_count_le_one]
  intro m
  have hone := hs.memCount_le_one m
  have hfull := (take_sublist cfg.writeBatchSize s.fullMsinfoq).count_le m
  unfold memCount at hone
  rw [batchFull]
  omega

include hlen in
theorem mem_batchWritten (h : (m, d) ∈ s.batchWritten cfg) :
    m ∈ s.batchFull cfg ∧ d ∈ s.batchDisk cfg := by
  have hm : m ∈ (s.batchWritten cfg).map Prod.fst := mem_map.2 ⟨_, h, rfl⟩
  have hd : d ∈ (s.batchWritten cfg).map Prod.snd := mem_map.2 ⟨_, h, rfl⟩
  rw [map_fst_batchWritten hlen] at hm
  rw [map_snd_batchWritten hlen] at hd
  exact ⟨(sortBySlabId_perm _).mem_iff.1 (mem_of_mem_take hm),
    (sortBySlabId_perm _).mem_iff.1 (mem_of_mem_take hd)⟩

include hs hlen in
theorem Owned.nodup_batchWritten :
    ((s.batchWritten cfg).map Prod.fst).Nodup ∧ ((s.batchWritten cfg).map Prod.snd).Nodup := by
  refine ⟨?_, nodup_map_snd_batchWritten hlen hs.nodup_batchDisk⟩
  rw [map_fst_batchWritten hlen]
  exact ((sortBySlabId_perm _).nodup_iff.2 hs.nodup_batchFull).sublist (take_sublist _ _)

include hs hlen in
theorem Owned.flushable : s.tiered.Flushable {d | d ∈ s.batchEvicted cfg}
    (fun m d => (m, d) ∈ s.batchWritten cfg) where
  live _ hd := Or.inr (mem_batchEvicted hd)
  idle {m d} hw := by
    rcases mem_append.1 (mem_batchWritten hlen hw).2 with hfree | hevict
    · exact Or.inl (hs.notMem_live_of_free (mem_of_mem_take hfree))
    · exact Or.inr hevict
  answers {m d} hw _ := hs.notMem_evict_of_full (mem_of_mem_take (mem_batchWritten hlen hw).1)
  right_unique {m d d'} hw hw' :=
    congrArg Prod.snd (inj_on_of_nodup_map (hs.nodup_batchWritten hlen).1 hw hw' rfl)

include hs in
theorem Owned.nodup_batchEvicted : (s.batchEvicted cfg).Nodup :=
  hs.nodup_batchDisk.sublist (sublist_append_right _ _)

include hs hne hlen

theorem Owned.writeBatch_written (hw : (m, d) ∈ s.batchWritten cfg) :
    ((s.writeBatch cfg).dstable d).cid = (s.mstable m).cid ∧
      ((s.writeBatch cfg).dstable d).slots = (s.mstable m).slots ∧
      ((s.writeBatch cfg).dstable d).nalloc = (s.mstable m).nalloc ∧
      (s.writeBatch cfg).dslab d = s.mslab m :=
  writeBatch_of_mem hne hlen hs.nodup_batchDisk hw

theorem Owned.writeBatch_evicted (hd : d ∈ s.batchEvicted cfg)
    (hw : d ∉ (s.batchWritten cfg).map Prod.snd) : ((s.writeBatch cfg).dstable d).slots = [] := by
  rw [writeBatch_eq hne hlen hs.nodup_batchDisk]
  simp only [(writePairs_of_notMem hw).1]
  rw [batchPrepared, dstable_foldl_evictDisk_of_mem hs.nodup_batchEvicted hd]
  rfl

theorem Owned.writeBatch_other (hd : d ∉ s.batchEvicted cfg)
    (hw : d ∉ (s.batchWritten cfg).map Prod.snd) :
    (s.writeBatch cfg).dstable d = s.dstable d ∧ (s.writeBatch cfg).dslab d = s.dslab d := by
  rw [writeBatch_eq hne hlen hs.nodup_batchDisk]
  obtain ⟨htable, hslab⟩ := writePairs_of_notMem (s := s.batchPrepared cfg) hw
  simp only [htable, hslab]
  constructor
  · rw [batchPrepared, dstable_foldl_evictDisk_of_notMem hd]
    rfl
  · rw [batchPrepared_eq]
    rfl

theorem Owned.massTree_writeBatch_evicted {k : Key}
    (hk : ∃ d ∈ s.batchEvicted cfg, (s.dstable d).HasKey k) :
    (s.writeBatch cfg).massTree[k]? = none := by
  classical
  rw [writeBatch_eq hne hlen hs.nodup_batchDisk]
  exact (massTree_foldl_evictDisk hs.nodup_batchEvicted k).trans (if_pos hk)

theorem Owned.massTree_writeBatch_other {k : Key}
    (hk : ¬ ∃ d ∈ s.batchEvicted cfg, (s.dstable d).HasKey k) :
    (s.writeBatch cfg).massTree[k]? = s.massTree[k]? := by
  classical
  rw [writeBatch_eq hne hlen hs.nodup_batchDisk]
  exact (massTree_foldl_evictDisk hs.nodup_batchEvicted k).trans (if_neg hk)

theorem Owned.live_writeBatch : (s.writeBatch cfg).tiered.live =
    (s.tiered.live \ {d | d ∈ s.batchEvicted cfg}) ∪ {d | ∃ m, (m, d) ∈ s.batchWritten cfg} := by
  rw [writeBatch_eq hne hlen hs.nodup_batchDisk]
  ext d
  have hsplit : d ∈ s.diskEvictSinfoq ↔ d ∈ s.batchEvicted cfg ∨
      d ∈ s.diskEvictSinfoq.drop ((s.batchFull cfg).length - s.batchFree cfg) := by
    rw [batchEvicted, ← mem_append, take_append_drop]
  have hdisk : d ∈ s.batchEvicted cfg → d ∉ s.usedDsinfoq ∧
      d ∉ s.diskEvictSinfoq.drop ((s.batchFull cfg).length - s.batchFree cfg) := fun hd =>
    hs.notMem_of_batchDisk (mem_append_right _ hd)
  have hwritten : d ∈ (s.batchWritten cfg).map Prod.snd ↔
      ∃ m, (m, d) ∈ s.batchWritten cfg := by
    simp
  change (d ∈ s.usedDsinfoq ++ (s.batchWritten cfg).map Prod.snd ∨
    d ∈ s.diskEvictSinfoq.drop ((s.batchFull cfg).length - s.batchFree cfg)) ↔
    ((d ∈ s.usedDsinfoq ∨ d ∈ s.diskEvictSinfoq) ∧ d ∉ s.batchEvicted cfg) ∨
      ∃ m, (m, d) ∈ s.batchWritten cfg
  rw [mem_append, hwritten, hsplit]
  constructor
  · rintro ((hused | hw) | hrest)
    · exact Or.inl ⟨Or.inl hused, fun hev => (hdisk hev).1 hused⟩
    · exact Or.inr hw
    · exact Or.inl ⟨Or.inr (Or.inr hrest), fun hev => (hdisk hev).2 hrest⟩
  · rintro (⟨hused | hev | hrest, hnev⟩ | hw)
    · exact Or.inl (Or.inl hused)
    · exact absurd hev hnev
    · exact Or.inr hrest
    · exact Or.inl (Or.inr hw)

theorem Owned.tiered_writeBatch : (s.writeBatch cfg).tiered =
    s.tiered.flush {d | d ∈ s.batchEvicted cfg} (fun m d => (m, d) ∈ s.batchWritten cfg) := by
  ext1
  · rw [writeBatch_eq hne hlen hs.nodup_batchDisk]
    rfl
  · funext d
    ext k
    by_cases hw : ∃ m, (m, d) ∈ s.batchWritten cfg
    · simp only [flush, if_pos hw]
      constructor
      · intro hk
        obtain ⟨m, hm⟩ := hw
        obtain ⟨hcid, hslots, -⟩ := hs.writeBatch_written hne hlen hm
        exact ⟨m, hm, (SlabInfo.hasKey_congr hcid hslots k).1 hk⟩
      · rintro ⟨m, hm, hk⟩
        obtain ⟨hcid, hslots, -⟩ := hs.writeBatch_written hne hlen hm
        exact (SlabInfo.hasKey_congr hcid hslots k).2 hk
    · have hw' : d ∉ (s.batchWritten cfg).map Prod.snd := by simpa using hw
      by_cases hev : d ∈ s.batchEvicted cfg
      · have hev' : d ∈ {d | d ∈ s.batchEvicted cfg} := hev
        simp only [flush, if_neg hw, if_pos hev']
        exact iff_of_false (SlabInfo.not_hasKey (hs.writeBatch_evicted hne hlen hev hw') k) id
      · have hev' : d ∉ {d | d ∈ s.batchEvicted cfg} := hev
        simp only [flush, if_neg hw, if_neg hev', tiered,
          (hs.writeBatch_other hne hlen hev hw').1]
  · funext k
    change (s.writeBatch cfg).massTree[k]?.map Place.toSum = _
    by_cases hev : ∃ d ∈ s.batchEvicted cfg, (s.dstable d).HasKey k
    · have hev' : ∃ d ∈ {d | d ∈ s.batchEvicted cfg}, k ∈ s.tiered.diskKeys d := hev
      rw [hs.massTree_writeBatch_evicted hne hlen hev]
      simp only [flush, if_pos hev', Option.map_none]
    · have hev' : ¬ ∃ d ∈ {d | d ∈ s.batchEvicted cfg}, k ∈ s.tiered.diskKeys d := hev
      rw [hs.massTree_writeBatch_other hne hlen hev]
      simp only [flush, if_neg hev']
      rfl
  · rw [writeBatch_eq hne hlen hs.nodup_batchDisk]
    funext m d
    simp only [tiered, flush, mem_append]
  · exact hs.live_writeBatch hne hlen

end Batch

end TreeSeries

end PromTCS
