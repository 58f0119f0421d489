import PromTCS.TreeSeries.Index

/-!
# The folded ids

A slot holds the quotients of the ids of its series by the sizes of the class table, one byte
each; the remainders are the class of the slab. `GetSinfoSourceID` and `GetSinfoMetricID` put
them together again, with the remainders read from the class table. For ids in range nothing is
lost, and a slot belongs to one series of its class, in memory, on disk and after the slab has
been used again.
-/

namespace PromTCS

open List Function BitVec

/-- `class_source_id_` and `class_metric_id_` of a class. -/
structure ClassIds where
  classSourceId : BitVec 64
  classMetricId : BitVec 16

def initCtable (c : ClassId) : ClassIds where
  classSourceId := BitVec.ofNat 64 c.2
  classMetricId := BitVec.ofNat 16 c.1

/-- `GetSinfoSourceID(sinfo, idx)` in machine words. -/
def SlabInfo.sourceIDWord (info : SlabInfo) (slot : Slot) : BitVec 64 :=
  (BitVec.ofNat 8 slot.sourceId).setWidth 64 * BitVec.ofNat 64 cyNum +
    (initCtable info.cid).classSourceId

/-- `GetSinfoMetricID(sinfo, idx)` in machine words: the product is one of `int`s, and the
result is cut to 16 bits. -/
def SlabInfo.metricIDWord (info : SlabInfo) (slot : Slot) : BitVec 16 :=
  ((BitVec.ofNat 8 slot.metricId).setWidth 32 * BitVec.ofNat 32 cxNum +
    (initCtable info.cid).classMetricId.setWidth 32).setWidth 16

/-- The comparison of `ConPutKV` of a slot with the ids of a series of the class. -/
def Slot.Matches (slot : Slot) (sourceId metricId : ℕ) : Prop :=
  slot.sourceId = foldSource sourceId ∧ slot.metricId = foldMetric metricId

def IdsInRange (sourceId metricId : ℕ) : Prop :=
  sourceId < 2 ^ 20 ∧ metricId < 512

variable {slot : Slot}

theorem toNat_sourceIDWord (info : SlabInfo) (h : slot.sourceId < 256) :
    (info.sourceIDWord slot).toNat = info.getSinfoSourceID slot := by
  have hy : info.cid.2.val < 10000 := info.cid.2.isLt
  have hbyte : slot.sourceId % 2 ^ 8 = slot.sourceId := Nat.mod_eq_of_lt h
  simp only [SlabInfo.sourceIDWord, SlabInfo.getSinfoSourceID, initCtable, toNat_add,
    toNat_mul, toNat_setWidth, toNat_ofNat, hbyte, cyNum]
  omega

theorem toNat_metricIDWord (info : SlabInfo) (h : slot.metricId < 256) :
    (info.metricIDWord slot).toNat = info.getSinfoMetricID slot := by
  have hx : info.cid.1.val < 100 := info.cid.1.isLt
  have hbyte : slot.metricId % 2 ^ 8 = slot.metricId := Nat.mod_eq_of_lt h
  simp only [SlabInfo.metricIDWord, SlabInfo.getSinfoMetricID, initCtable, toNat_add,
    toNat_mul, toNat_setWidth, toNat_ofNat, hbyte, cxNum]
  omega

theorem unfold_of_matches {info : SlabInfo} {sourceId metricId : ℕ}
    (hids : IdsInRange sourceId metricId) (hcid : info.cid = classOf sourceId metricId)
    (h : slot.Matches sourceId metricId) :
    (info.sourceIDWord slot).toNat = sourceId ∧ (info.metricIDWord slot).toNat = metricId := by
  obtain ⟨hs, hm⟩ := hids
  obtain ⟨hsource, hmetric⟩ := h
  rw [toNat_sourceIDWord info (by rw [hsource]; exact Nat.mod_lt _ (by decide)),
    toNat_metricIDWord info (by rw [hmetric]; exact Nat.mod_lt _ (by decide))]
  simp only [SlabInfo.getSinfoSourceID, SlabInfo.getSinfoMetricID, hcid, hsource, hmetric,
    classOf, foldSource, foldMetric, cyNum, cxNum]
  omega

namespace Traced

open TreeSeries

def HoldsSeries (info : SlabInfo) (call : PutCall) : Prop :=
  info.cid = classOf call.sourceId call.metricId ∧
    ∃ slot ∈ info.slots, slot.Matches call.sourceId call.metricId

def FoldAllowed (_ : Traced) : Op → Prop
  | .conPutKV call => IdsInRange call.sourceId call.metricId
  | .forceFlush => False
  | _ => True

structure Folded (cfg : Setting) (t : Traced) : Prop where
  owned : t.store.Owned cfg
  inRange : ∀ e ∈ t.ledger, IdsInRange e.call.sourceId e.call.metricId
  current : ∀ c m, t.store.slabOf c = some m →
    (t.store.mstable m).slots = [] ∨ (t.store.mstable m).cid = c
  free : ∀ m ∈ t.store.freeMsinfoq, (t.store.mstable m).slots = []
  placed : ∀ e ∈ t.ledger, ∀ p, e.slab = some p →
    t.store.tiered.Answers p.toSum ∧ HoldsSeries (t.store.sinfo p) e.call

abbrev Kept (cfg : Setting) (t : Traced) : Prop :=
  t.Placed HoldsSeries cfg

variable {cfg : Setting} {t : Traced}
  {call : PutCall} {info : SlabInfo} {s : TreeSeries} {m : ℕ} {t' : Traced} {op : Op}

theorem holdsSeries_congr {info' : SlabInfo} (hcid : info'.cid = info.cid)
    (hslots : info'.slots = info.slots) (h : HoldsSeries info call) : HoldsSeries info' call := by
  rwa [HoldsSeries, hcid, hslots]

theorem ofSlots_holdsSeries : OfSlots HoldsSeries where
  congr := holdsSeries_congr
  ne_nil := fun ⟨_, _, hslot, _⟩ => ne_nil_of_mem hslot

theorem exists_matches_of_slotStep {tree tree' : MassTree} {slots : List Slot}
    (h : SlotStep call m info tree slots tree') {sourceId metricId : ℕ}
    (hin : ∃ slot ∈ info.slots, slot.Matches sourceId metricId) :
    ∃ slot ∈ slots, slot.Matches sourceId metricId := by
  obtain ⟨slot, hslot, hmatch⟩ := hin
  cases h with
  | extend j old hfind hold =>
    obtain ⟨i, hi⟩ := mem_iff_getElem?.1 hslot
    by_cases hij : i = j
    · subst hij
      obtain rfl : slot = old := Option.some.inj (hi.symm.trans hold)
      exact ⟨_, mem_set (List.getElem?_eq_some_iff.1 hold).1 _, hmatch⟩
    · refine ⟨slot, mem_of_getElem? (i := i) ?_, hmatch⟩
      rw [getElem?_set_ne (Ne.symm hij), hi]
  | add hfind hlen hunfold => exact ⟨slot, mem_append_left _ hslot, hmatch⟩

theorem exists_matches_call {tree tree' : MassTree} {slots : List Slot}
    (h : SlotStep call m info tree slots tree') :
    ∃ slot ∈ slots, slot.Matches call.sourceId call.metricId := by
  cases h with
  | extend j old hfind hold =>
    have hfound := of_findIdx?_eq_some hfind
    simp only [hold, Bool.and_eq_true, beq_iff_eq] at hfound
    exact ⟨_, mem_set (List.getElem?_eq_some_iff.1 hold).1 _, hfound⟩
  | add hfind hlen hunfold =>
    exact ⟨newSlot call, mem_append_right _ mem_cons_self, rfl, rfl⟩

theorem holdsSeries_conPutKV {s' : TreeSeries} (hput : s.conPutKV cfg call = .ok (some m, s')) :
    HoldsSeries (s'.mstable m) call := by
  rcases conPutKV_cases hput with ⟨hsid, -⟩ | ⟨m', s₁, hsid, -, hslab⟩
  · cases hsid
  · obtain rfl : m = m' := Option.some.inj hsid
    obtain ⟨-, -, slots, tree, txn, hstep, rfl⟩ := putInSlab_eq_ok hslab
    have hself := s₁.mstable_afterPut_self call m slots tree txn
    rw [hself]
    exact ⟨rfl, exists_matches_call hstep⟩

theorem Kept.conPutKV (h : t.Kept cfg) {sid : Option ℕ}
    (hput : t.store.conPutKV cfg call = .ok (sid, s)) : (t.record call (sid, s)).Kept cfg := by
  rcases conPutKV_cases hput with ⟨rfl, rfl⟩ | ⟨m, s₁, rfl, hcur, hslab⟩
  · exact h
  obtain ⟨-, -, slots, tree, txn, hstep, rfl⟩ := putInSlab_eq_ok hslab
  have hself := s₁.mstable_afterPut_self call m slots tree txn
  refine (h.currentSlab ofSlots_holdsSeries hcur).afterPut ofSlots_holdsSeries
    (slabOf_currentSlab_self hcur) (holdsSeries_conPutKV hput) fun hclass hin => ?_
  rw [hself]
  exact ⟨hclass.symm.trans hin.1, exists_matches_of_slotStep hstep hin.2⟩

theorem Kept.step (h : t.Kept cfg) (hop : op ≠ .forceFlush) (hstep : t.step cfg op = .ok t') :
    t'.Kept cfg := by
  cases op with
  | conPutKV call =>
    obtain ⟨p, hput, rfl⟩ := Run.map_eq_ok hstep
    exact h.conPutKV hput
  | optBatchWriteLazyFlush =>
    obtain ⟨⟨b, s⟩, hwrite, rfl⟩ := Run.map_eq_ok hstep
    rcases optBatchWriteLazyFlush_cases hwrite with ⟨-, rfl, rfl⟩ | ⟨-, -, rfl, rfl⟩ |
      ⟨-, -, rfl, hne, hlen, rfl⟩
    · exact h
    · exact h.pushBack
    · exact h.writeBatch hne hlen ofSlots_holdsSeries
  | migrateReadLazyFlush =>
    obtain ⟨⟨res, s⟩, hread, rfl⟩ := Run.map_eq_ok hstep
    exact h.migrateReadLazyFlush hread
  | forceFlush => exact absurd rfl hop

theorem mem_ledger_step (hstep : t.step cfg op = .ok t') {e : Stored} (he : e ∈ t'.ledger) :
    (∃ e₀ ∈ t.ledger, e.call = e₀.call) ∨ op = .conPutKV e.call := by
  cases op with
  | conPutKV call =>
    obtain ⟨⟨sid, s⟩, -, rfl⟩ := Run.map_eq_ok hstep
    cases sid with
    | none => exact Or.inl ⟨e, he, rfl⟩
    | some m =>
      rcases mem_append.1 he with he | he
      · exact Or.inl ⟨e, he, rfl⟩
      · exact Or.inr (by rw [mem_singleton.1 he])
  | optBatchWriteLazyFlush =>
    obtain ⟨⟨b, s⟩, -, rfl⟩ := Run.map_eq_ok hstep
    cases b with
    | false => exact Or.inl ⟨e, he, rfl⟩
    | true =>
      obtain ⟨e₀, he₀, rfl⟩ := mem_map.1 he
      exact Or.inl ⟨e₀, he₀, rfl⟩
  | migrateReadLazyFlush =>
    obtain ⟨p, -, rfl⟩ := Run.map_eq_ok hstep
    exact Or.inl ⟨e, he, rfl⟩
  | forceFlush =>
    cases hstep
    exact Or.inl ⟨e, he, rfl⟩

theorem Folded.kept (h : t.Folded cfg) : t.Kept cfg :=
  ⟨h.owned, h.current, h.free, h.placed⟩

theorem Kept.folded (h : t.Kept cfg)
    (hids : ∀ e ∈ t.ledger, IdsInRange e.call.sourceId e.call.metricId) : t.Folded cfg :=
  ⟨h.owned, hids, h.current, h.free, h.placed⟩

theorem Folded.step (h : t.Folded cfg) (hop : t.FoldAllowed op) (hstep : t.step cfg op = .ok t') :
    t'.Folded cfg := by
  have hforce : op ≠ .forceFlush := by
    rintro rfl
    exact hop
  refine (h.kept.step hforce hstep).folded fun e he => ?_
  rcases mem_ledger_step hstep he with ⟨e₀, he₀, heq⟩ | rfl
  · exact heq ▸ h.inRange e₀ he₀
  · exact hop

instance (t : Traced) : (op : Op) → Decidable (t.FoldAllowed op)
  | .conPutKV _ => inferInstanceAs (Decidable (_ ∧ _))
  | .optBatchWriteLazyFlush => inferInstanceAs (Decidable True)
  | .migrateReadLazyFlush => inferInstanceAs (Decidable True)
  | .forceFlush => inferInstanceAs (Decidable False)

def Unfolds (info : SlabInfo) (sourceId metricId : ℕ) : Prop :=
  ∃ slot ∈ info.slots, slot.Matches sourceId metricId ∧
    (info.sourceIDWord slot).toNat = sourceId ∧ (info.metricIDWord slot).toNat = metricId

theorem HoldsSeries.unfolds (h : HoldsSeries info call)
    (hids : IdsInRange call.sourceId call.metricId) : Unfolds info call.sourceId call.metricId := by
  obtain ⟨hcid, slot, hslot, hmatch⟩ := h
  exact ⟨slot, hslot, hmatch, unfold_of_matches hids hcid hmatch⟩

/-- For ids in range the slot a put writes unfolds to the ids of the call, whatever the store
was. Two series of the class of a slab that match one slot are the same. In every state reached
under lazy flush the slab a chunk is in, in memory or on disk, still has a slot that unfolds to
the ids of its series. -/
theorem idFolding_lossless (cfg : Setting) :
    (∀ (s s' : TreeSeries) (call : PutCall) (m : ℕ),
      IdsInRange call.sourceId call.metricId → s.conPutKV cfg call = .ok (some m, s') →
        Unfolds (s'.mstable m) call.sourceId call.metricId) ∧
    (∀ (info : SlabInfo) (slot : Slot) (sourceId metricId sourceId' metricId' : ℕ),
      IdsInRange sourceId metricId → IdsInRange sourceId' metricId' →
        classOf sourceId metricId = info.cid → classOf sourceId' metricId' = info.cid →
        slot.Matches sourceId metricId → slot.Matches sourceId' metricId' →
        sourceId = sourceId' ∧ metricId = metricId') ∧
    ∀ (mslab dslab : ℕ → Slab) (t : Traced),
      Run.Reaches FoldAllowed (Traced.step cfg) ⟨initStable cfg mslab dslab, []⟩ t →
        ∀ e ∈ t.ledger, ∀ p, e.slab = some p →
          Unfolds (t.store.sinfo p) e.call.sourceId e.call.metricId := by
  refine ⟨fun s s' call m hids hput => ?_, ?_, fun mslab dslab t hrun e he p hp => ?_⟩
  · exact (holdsSeries_conPutKV hput).unfolds hids
  · intro info slot sourceId metricId sourceId' metricId' hids hids' hcid hcid' hmatch hmatch'
    obtain ⟨hs, hm⟩ := unfold_of_matches hids hcid.symm hmatch
    obtain ⟨hs', hm'⟩ := unfold_of_matches hids' hcid'.symm hmatch'
    exact ⟨hs.symm.trans hs', hm.symm.trans hm'⟩
  · have hinit : Folded cfg ⟨initStable cfg mslab dslab, []⟩ :=
      Kept.folded (placed_initStable _ cfg mslab dslab) fun e he => absurd he not_mem_nil
    have h : t.Folded cfg := hrun.invariant hinit fun _ _ _ ih hop hstep => ih.step hop hstep
    exact (h.placed e he p hp).2.unfolds (h.inRange e he)

/-- The chunks of source 1 are on disk, and slab 0 has been used again by another class. -/
theorem idFolding_lossless_reused :
    ∃ t, Run.Reaches FoldAllowed (Traced.step sampleSetting) ⟨sampleStore, []⟩ t ∧
      (t.store.mstable 0).cid = classOf 12 1 ∧ (t.store.dstable 0).cid = classOf 1 1 ∧
      ∀ e ∈ t.ledger, ∀ p, e.slab = some p →
        Unfolds (t.store.sinfo p) e.call.sourceId e.call.metricId := by
  have hrun : (Run.exec FoldAllowed (Traced.step sampleSetting) ⟨sampleStore, []⟩
      (samplePuts 1 0 32 ++ [.optBatchWriteLazyFlush] ++
        (List.range 11).map fun i => .conPutKV (samplePut (i + 2) 0))).map
      (fun t => ((t.store.mstable 0).cid, (t.store.dstable 0).cid)) =
      some (classOf 12 1, classOf 1 1) := by
    decide +kernel
  obtain ⟨t, hreach, hview⟩ := Run.exists_reaches_of_exec hrun
  exact ⟨t, hreach, congrArg Prod.fst hview, congrArg Prod.snd hview,
    (idFolding_lossless sampleSetting).2.2 _ _ t hreach⟩

end Traced

end PromTCS
