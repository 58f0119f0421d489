import PromTCS.TreeSeries.Filling

/-!
# Runs of puts

A store that is only put to, with no batch write in between, fills its free memory slabs one
after the other. Nothing is on disk and no slab is used twice, so that the items of a slab
are the chunks put into it, in order, and the index points at the slab of every slot.
-/

namespace PromTCS

open List Function

namespace TreeSeries

theorem exists_putInSlab {cfg : Setting} {s : TreeSeries} {call : PutCall} {m : ℕ}
    (hsid : cfg.validSid m = true) (hnalloc : (s.mstable m).nalloc < maxAllocItem)
    (hslots : (s.mstable m).slots.length < maxAllocItem)
    (hunfold : ∀ info : SlabInfo, info.cid = call.cid →
      unfolds info call = true) : ∃ s', putInSlab cfg s call m = .ok s' := by
  have hinfo := mstable_writeItem s call m call.cid
  generalize hs₁ : (s.setMem m { s.mstable m with
    cid := call.cid }).writeItem call m = s₁ at hinfo
  have hrecord : ∃ s₂, s₁.recordChunk call m = .ok s₂ := by
    unfold recordChunk
    rw [hinfo]
    cases hfind : findSlot _ call with
    | some j =>
      obtain ⟨hj, -⟩ := findIdx?_eq_some_iff_getElem.1 hfind
      simp only [getElem?_eq_getElem hj]
      exact ⟨_, rfl⟩
    | none =>
      simp only [if_neg (Nat.not_le.2 hslots)]
      rw [if_pos (hunfold _ rfl)]
      exact ⟨_, rfl⟩
  obtain ⟨s₂, hs₂⟩ := hrecord
  have hfull : ¬ maxAllocItem ≤
      ((s.setMem m { s.mstable m with cid := call.cid }).mstable m).nalloc := by
    simpa [setMem] using hnalloc
  refine ⟨s₂.queueIfFull call.cid m, ?_⟩
  simp only [putInSlab, hsid, Bool.not_true, Bool.false_eq_true, if_false, if_neg hfull, hs₁, hs₂]
  rfl

theorem Lifecycle.sum_queues {cfg : Setting} {s : TreeSeries} (h : s.Lifecycle cfg)
    (hevict : s.memEvictSinfoq = []) :
    s.freeMsinfoq.length + Places.occupied s.slabOf + s.fullMsinfoq.length = cfg.nmslab := by
  have hcount : ∀ m, s.freeMsinfoq.count m + Places.occupants s.slabOf m +
      s.fullMsinfoq.count m = if m < cfg.nmslab then 1 else 0 := by
    intro m
    have hm := h.memCount_eq m
    rwa [memCount, hevict, map_nil, count_nil, Nat.add_zero] at hm
  have hbelow : ∀ m, 0 < s.freeMsinfoq.count m + Places.occupants s.slabOf m +
      s.fullMsinfoq.count m → m < cfg.nmslab := by
    intro m hpos
    by_contra hout
    rw [hcount, if_neg hout] at hpos
    exact lt_irrefl _ hpos
  have hlist : ∀ l : List ℕ, (∀ m, l.count m ≤ s.freeMsinfoq.count m +
      Places.occupants s.slabOf m + s.fullMsinfoq.count m) →
      ∑ m ∈ Finset.range cfg.nmslab, l.count m = l.length := by
    intro l hl
    have hcard := Multiset.sum_count_eq_card (s := Finset.range cfg.nmslab) (m := (l : Multiset ℕ))
      fun m hm => Finset.mem_range.2
        (hbelow m (lt_of_lt_of_le (count_pos_iff.2 (Multiset.mem_coe.1 hm)) (hl m)))
    simpa only [Multiset.coe_count, Multiset.coe_card] using hcard
  rw [← hlist s.freeMsinfoq fun m => by omega, ← hlist s.fullMsinfoq fun m => by omega,
    ← Places.sum_occupants (n := cfg.nmslab) fun m hm => hbelow m (by omega),
    ← Finset.sum_add_distrib, ← Finset.sum_add_distrib]
  rw [Finset.sum_const_nat fun m hm => (hcount m).trans (if_pos (Finset.mem_range.1 hm)),
    Finset.card_range, Nat.mul_one]

end TreeSeries

namespace Traced

open TreeSeries

/-- The chunks put into memory slab `m`, in order. -/
def inSlab (t : Traced) (m : ℕ) : List Stored :=
  t.ledger.filter fun e => e.slab = some (.mem m)

def PutAllowed (t : Traced) : Op → Prop
  | .conPutKV call => t.Increasing call ∧ InRange call
  | _ => False

structure PutInvariant (cfg : Setting) (t : Traced) : Prop where
  slots_le : ∀ m, (t.store.mstable m).slots.length ≤ (t.store.mstable m).nalloc
  nalloc_le : ∀ m, (t.store.mstable m).nalloc ≤ maxAllocItem
  distinct : ∀ m, (t.store.mstable m).slots.Pairwise fun a b =>
    ¬ ((t.store.mstable m).getSinfoSourceID a = (t.store.mstable m).getSinfoSourceID b ∧
      (t.store.mstable m).getSinfoMetricID a = (t.store.mstable m).getSinfoMetricID b)
  ofClass : ∀ m, ∀ slot ∈ (t.store.mstable m).slots, ∃ e ∈ t.inSlab m,
    e.call.sourceId = (t.store.mstable m).getSinfoSourceID slot ∧
    e.call.metricId = (t.store.mstable m).getSinfoMetricID slot ∧
    classOf e.call.sourceId e.call.metricId = (t.store.mstable m).cid
  current_inj : ∀ c c' m, t.store.slabOf c = some m → t.store.slabOf c' = some m → c = c'
  current_lt : ∀ c m, t.store.slabOf c = some m → (t.store.mstable m).nalloc < maxAllocItem
  counters : t.store.nfreeMsinfoq.toNat + t.store.nusedMsinfoq.toNat +
    t.store.nfullMsinfoq.toNat = cfg.nmslab
  keys : ∀ m, ∀ slot ∈ (t.store.mstable m).slots,
    t.store.massTree[(t.store.mstable m).startKey slot]? = some (.mem m) ∧
    t.store.massTree[(t.store.mstable m).endKey slot]? = some (.mem m)
  nalloc_eq : ∀ m, (t.store.mstable m).nalloc = (t.inSlab m).length
  items : ∀ m k e, (t.inSlab m)[k]? = some e → ItemHolds (t.store.mslab m k) e.call

structure PutState (cfg : Setting) (t : Traced) : Prop where
  indexed : t.Indexed cfg
  lifecycle : t.store.Lifecycle cfg
  evict : t.store.memEvictSinfoq = []
  disk : ∀ d, (t.store.dstable d).slots = []
  outside : ∀ m, cfg.nmslab ≤ m → (t.store.mstable m).slots = []
  nalloc_le : ∀ m, (t.store.mstable m).nalloc ≤ maxAllocItem
  current_lt : ∀ c m, t.store.slabOf c = some m → (t.store.mstable m).nalloc < maxAllocItem
  slabs : t.Slabs Filled

theorem putState_initStable (cfg : Setting) (mslab dslab : ℕ → Slab) :
    PutState cfg ⟨initStable cfg mslab dslab, []⟩ where
  indexed := indexed_initStable cfg mslab dslab
  lifecycle := lifecycle_initStable cfg mslab dslab
  evict := rfl
  disk _ := rfl
  outside _ _ := rfl
  nalloc_le _ := Nat.zero_le _
  current_lt c m hc := by simp [slabOf, initStable] at hc
  slabs := slabRule_filled.initStable cfg mslab dslab

variable {cfg : Setting} {t : Traced}

theorem classOf_getSinfo (info : SlabInfo) (slot : Slot) :
    classOf (info.getSinfoSourceID slot) (info.getSinfoMetricID slot) = info.cid := by
  refine Prod.ext (Fin.ext ?_) (Fin.ext ?_)
  · exact (Nat.mul_add_mod' _ _ _).trans (Nat.mod_eq_of_lt info.cid.1.isLt)
  · exact (Nat.mul_add_mod' _ _ _).trans (Nat.mod_eq_of_lt info.cid.2.isLt)

section

variable (h : t.PutState cfg)
include h

theorem PutState.answers (m : ℕ) :
    t.store.tiered.Answers (Place.mem m).toSum := by
  intro d hd
  change (m, d) ∈ t.store.memEvictSinfoq at hd
  rw [h.evict] at hd
  cases hd

theorem PutState.filled (m : ℕ) :
    Filled (t.store.mstable m) (t.store.mslab m) ((t.inSlab m).map Stored.call) :=
  h.slabs (.mem m) (h.answers m)

theorem PutState.slots_le (m : ℕ) :
    (t.store.mstable m).slots.length ≤ (t.store.mstable m).nalloc :=
  (h.filled m).length_slots_le

theorem PutState.nalloc_eq (m : ℕ) :
    (t.store.mstable m).nalloc = (t.inSlab m).length := by
  rw [(h.filled m).nalloc_eq, length_map]

theorem PutState.invariant : t.PutInvariant cfg where
  slots_le := h.slots_le
  nalloc_le := h.nalloc_le
  distinct m := by
    rw [pairwise_iff_getElem]
    rintro i j hi hj hij ⟨hsource, hmetric⟩
    obtain ⟨hs, hm⟩ := getSinfo_inj hsource hmetric
    exact hij.ne ((h.indexed.slotsOk m).distinct (getElem?_eq_getElem hi)
      (getElem?_eq_getElem hj) hs hm)
  ofClass m slot hslot := by
    obtain ⟨call, hcall, hsource, hmetric, -⟩ := (h.filled m).exists_end hslot
    obtain ⟨e, he, rfl⟩ := mem_map.1 hcall
    refine ⟨e, he, hsource, hmetric, ?_⟩
    rw [hsource, hmetric, classOf_getSinfo]
  current_inj c c' m hc hc' := by
    have hone := h.indexed.owned.memCount_le_one m
    unfold memCount at hone
    exact Places.eq_of_occupants_le_one (by omega) hc hc'
  current_lt := h.current_lt
  counters := by
    rw [h.lifecycle.nfreeMsinfoq, h.lifecycle.nusedMsinfoq, h.lifecycle.nfullMsinfoq]
    exact h.lifecycle.sum_queues h.evict
  keys m slot hslot := by
    have hkey : ∀ k, (t.store.mstable m).HasKey k → t.store.massTree[k]? = some (.mem m) := by
      intro k hk
      obtain ⟨q, hq⟩ := h.indexed.valid.complete (h.answers m) ((mem_keys_tiered _ (.mem m) _).2 hk)
      have hsound := h.indexed.valid.sound hq
      cases q with
      | inr d => exact absurd hsound (SlabInfo.not_hasKey (h.disk d) k)
      | inl m' =>
        obtain rfl : m' = m := Sum.inl.inj (h.indexed.valid.distinct (h.answers m')
          (h.answers m) hsound ((mem_keys_tiered _ (.mem m) _).2 hk))
        exact (index_tiered_eq_some _ _ (.mem m')).1 hq
    exact ⟨hkey _ ⟨slot, hslot, Or.inl rfl⟩, hkey _ ⟨slot, hslot, Or.inr rfl⟩⟩
  nalloc_eq := h.nalloc_eq
  items m k e he := (h.filled m).items k e.call (by rw [getElem?_map, he, Option.map_some])

end

/-! ## The step -/

variable {m : ℕ} {c : ClassId}

theorem PutState.lt_of_current (h : t.PutState cfg) (hc : t.store.slabOf c = some m) :
    m < cfg.nmslab := by
  have hpos := Places.occupants_pos hc
  refine h.lifecycle.owned.lt_of_memCount ?_
  unfold memCount
  omega

theorem PutState.nalloc_of_free (h : t.PutState cfg) (hm : m ∈ t.store.freeMsinfoq) :
    (t.store.mstable m).nalloc = 0 := by
  rw [h.nalloc_eq, length_eq_zero_iff, inSlab, filter_eq_nil_iff]
  intro e he hslab
  obtain ⟨-, slot, hslot⟩ := h.indexed.placed e he _ (of_decide_eq_true hslab)
  exact absurd (h.indexed.free m hm) (ne_nil_of_mem hslot.1)

theorem PutState.mstable_currentSlab (h : t.PutState cfg) {s₁ : TreeSeries}
    (hcur : t.store.currentSlab c = some (m, s₁)) (m' : ℕ) :
    (s₁.mstable m').cid = (t.store.mstable m').cid ∧
      (s₁.mstable m').slots = (t.store.mstable m').slots ∧
      (s₁.mstable m').nalloc = (t.store.mstable m').nalloc := by
  rcases currentSlab_cases hcur with ⟨-, rfl⟩ | ⟨-, rest, hfree, rfl⟩ | ⟨-, -, d, rest, hev, -⟩
  · exact ⟨rfl, rfl, rfl⟩
  · by_cases hm' : m' = m
    · subst hm'
      simp
    · simp [hm']
  · rw [h.evict] at hev
    cases hev

theorem PutState.currentSlab (h : t.PutState cfg) {s₁ : TreeSeries}
    (hcur : t.store.currentSlab c = some (m, s₁)) : PutState cfg ⟨s₁, t.ledger⟩ := by
  have hindexed := h.indexed.currentSlab hcur
  have hlife : s₁.Lifecycle cfg := lifecycle_of_counted
    (fun m' => (memCount_currentSlab hcur m').trans (h.lifecycle.memCount_eq m'))
    (fun d => (congrFun (diskCount_currentSlab hcur) d).trans (h.lifecycle.diskCount_eq d))
    (h.lifecycle.counted.currentSlab hcur)
  have hslab := slabOf_currentSlab hcur
  have hsame := h.mstable_currentSlab hcur
  rcases currentSlab_cases hcur with ⟨-, rfl⟩ | ⟨-, rest, hfree, hs₁⟩ | ⟨-, -, d, rest, hev, -⟩
  · exact h
  · refine ⟨hindexed, hlife, ?_, fun d => ?_, fun m' hm' => ?_, fun m' => ?_,
      fun c' m' hc' => ?_, h.slabs.currentSlab slabRule_filled h.indexed.answers hcur⟩
    · rw [hs₁]
      exact h.evict
    · rw [hs₁]
      exact h.disk d
    · rw [(hsame m').2.1]
      exact h.outside m' hm'
    · rw [(hsame m').2.2]
      exact h.nalloc_le m'
    · rw [(hsame m').2.2]
      rw [hslab] at hc'
      by_cases hcc : c' = c
      · subst hcc
        rw [update_self, Option.some.injEq] at hc'
        rw [← hc', h.nalloc_of_free (hfree ▸ mem_cons_self)]
        decide
      · rw [update_of_ne hcc] at hc'
        exact h.current_lt c' m' hc'
  · rw [h.evict] at hev
    cases hev

section Put

variable {call : PutCall} {m : ℕ} {s : TreeSeries}

theorem inSlab_put_self :
    inSlab ⟨s, t.ledger ++ [⟨call, some (.mem m)⟩]⟩ m = t.inSlab m ++ [⟨call, some (.mem m)⟩] := by
  simp [inSlab]

theorem inSlab_put_of_ne {m' : ℕ} (hm : m' ≠ m) :
    inSlab ⟨s, t.ledger ++ [⟨call, some (.mem m)⟩]⟩ m' = t.inSlab m' := by
  simp [inSlab, hm.symm]

theorem PutState.put (h : t.PutState cfg)
    (hc : t.store.slabOf call.cid = some m) (hr : InRange call)
    {slots : List Slot} {tree : MassTree} {txn : ℕ → ℤ}
    (hstep : SlotStep call m ((t.store.mstable m).taking call) t.store.massTree slots tree)
    (hindexed : Indexed cfg ⟨t.store.afterPut call m slots tree txn,
      t.ledger ++ [⟨call, some (.mem m)⟩]⟩) :
    PutState cfg ⟨t.store.afterPut call m slots tree txn,
      t.ledger ++ [⟨call, some (.mem m)⟩]⟩ := by
  have hself := t.store.mstable_afterPut_self call m slots tree txn
  have hother : ∀ m' ≠ m, (t.store.afterPut call m slots tree txn).mstable m' =
      t.store.mstable m' := fun m' hm' => update_of_ne hm' _ _
  have hslab := slabOf_afterPut slots tree txn t.store call m
  have hlt := h.current_lt _ m hc
  refine ⟨hindexed, ?_, h.evict, h.disk, fun m' hm' => ?_, fun m' => ?_, fun c' m' hc' => ?_,
    h.slabs.put slabRule_filled hr (h.indexed.current _ m hc) hstep⟩
  · exact lifecycle_of_counted
      (fun m' => (memCount_afterPut slots tree txn hc m').trans (h.lifecycle.memCount_eq m'))
      h.lifecycle.diskCount_eq (h.lifecycle.counted.afterPut slots tree txn hc)
  · rw [hother m' ((h.lt_of_current hc).trans_le hm').ne']
    exact h.outside m' hm'
  · by_cases hm : m' = m
    · subst hm
      rw [hself]
      exact hlt
    · rw [hother m' hm]
      exact h.nalloc_le m'
  · rw [hslab] at hc'
    by_cases hcc : c' = call.cid
    · subst hcc
      rw [update_self] at hc'
      split_ifs at hc' with hfull
      obtain rfl : m = m' := Option.some.inj (hc.symm.trans hc')
      rw [hself]
      exact lt_of_le_of_ne hlt hfull
    · rw [update_of_ne hcc] at hc'
      have hm : m' ≠ m := by
        rintro rfl
        exact hcc (h.invariant.current_inj _ _ _ hc' hc)
      rw [hother m' hm]
      exact h.current_lt c' m' hc'

end Put

theorem PutState.conPutKV (h : t.PutState cfg) {call : PutCall} (hinc : t.Increasing call)
    (hr : InRange call) {sid : Option ℕ} {s : TreeSeries}
    (hput : t.store.conPutKV cfg call = .ok (sid, s)) :
    (t.record call (sid, s)).PutState cfg ∧ (sid = none → s = t.store) := by
  have hindexed := h.indexed.conPutKV hinc hr hput
  rcases conPutKV_cases hput with ⟨rfl, rfl⟩ | ⟨m, s₁, rfl, hcur, hslab⟩
  · exact ⟨h, fun _ => rfl⟩
  · obtain ⟨-, -, slots, tree, txn, hstep, rfl⟩ := putInSlab_eq_ok hslab
    have hc := slabOf_currentSlab_self hcur
    exact ⟨(h.currentSlab hcur).put hc hr hstep hindexed, fun hnone => by cases hnone⟩

theorem PutState.exists_conPutKV (h : t.PutState cfg) (hsize : cfg.nmslab ≤ cfg.ndslab)
    {call : PutCall} (hr : InRange call) :
    ∃ sid s, t.store.conPutKV cfg call = .ok (sid, s) := by
  unfold TreeSeries.conPutKV
  cases hcur : t.store.currentSlab call.cid with
  | none => exact ⟨none, t.store, rfl⟩
  | some p =>
    obtain ⟨m, s₁⟩ := p
    have h₁ := h.currentSlab hcur
    have hc := slabOf_currentSlab_self hcur
    have hm := h₁.lt_of_current hc
    have hlt := h₁.current_lt _ m hc
    obtain ⟨s₂, hs₂⟩ : ∃ s₂, putInSlab cfg s₁ call m = .ok s₂ := exists_putInSlab
      (decide_eq_true ⟨hm, hm.trans_le hsize⟩ : cfg.validSid m = true) hlt
      (lt_of_le_of_lt (h₁.slots_le m) hlt)
      fun info hcid => decide_eq_true (getSinfo_of_fold hr hcid rfl rfl)
    refine ⟨some m, s₂, ?_⟩
    simp only [hs₂]
    rfl

theorem putAllowed_cases {t' : Traced} {op : Op} (hop : t.PutAllowed op)
    (hok : t.step cfg op = .ok t') : ∃ call sid s, op = .conPutKV call ∧ t.Increasing call ∧
      InRange call ∧ t.store.conPutKV cfg call = .ok (sid, s) ∧ t' = t.record call (sid, s) := by
  cases op with
  | conPutKV call =>
    cases hput : t.store.conPutKV cfg call with
    | error e => simp [step, hput, Except.map] at hok
    | ok p =>
      simp only [step, hput, Except.map, Except.ok.injEq] at hok
      exact ⟨call, p.1, p.2, rfl, hop.1, hop.2, hput, hok.symm⟩
  | optBatchWriteLazyFlush => exact hop.elim
  | migrateReadLazyFlush => exact hop.elim
  | forceFlush => exact hop.elim

theorem putState_of_reaches {t₀ : Traced} (h : t₀.PutState cfg)
    (hrun : Run.Reaches PutAllowed (Traced.step cfg) t₀ t) : t.PutState cfg := by
  refine hrun.invariant h fun t op t' h hop hok => ?_
  obtain ⟨call, sid, s, -, hinc, hr, hput, rfl⟩ := putAllowed_cases hop hok
  exact (h.conPutKV hinc hr hput).1

instance (t : Traced) : (op : Op) → Decidable (t.PutAllowed op)
  | .conPutKV call => inferInstanceAs (Decidable (t.Increasing call ∧ InRange call))
  | .optBatchWriteLazyFlush => inferInstanceAs (Decidable False)
  | .migrateReadLazyFlush => inferInstanceAs (Decidable False)
  | .forceFlush => inferInstanceAs (Decidable False)

/-- In every state of a run of puts the invariant holds, the next put does not fail and
leaves a state in which it holds, and a put that returns `false` changes nothing. -/
theorem conPutKV_invariant (cfg : Setting) (hsize : cfg.nmslab ≤ cfg.ndslab)
    (mslab dslab : ℕ → Slab) (t : Traced)
    (hrun : Run.Reaches PutAllowed (Traced.step cfg) ⟨initStable cfg mslab dslab, []⟩ t) :
    t.PutInvariant cfg ∧ ∀ call, t.Increasing call → InRange call →
      ∃ sid s, t.store.conPutKV cfg call = .ok (sid, s) ∧
        (t.record call (sid, s)).PutInvariant cfg ∧ (sid = none → s = t.store) := by
  have h := putState_of_reaches (putState_initStable cfg mslab dslab) hrun
  refine ⟨h.invariant, fun call hinc hr => ?_⟩
  obtain ⟨sid, s, hput⟩ := h.exists_conPutKV hsize hr
  obtain ⟨h', hnone⟩ := h.conPutKV hinc hr hput
  exact ⟨sid, s, hput, h'.invariant, hnone⟩

/-- Slab 0 filled by one series, slab 1 begun by another. -/
theorem conPutKV_invariant_twoSlabs :
    ∃ t, Run.Reaches PutAllowed (Traced.step sampleSetting) ⟨sampleStore, []⟩ t ∧
      t.store.fullMsinfoq = [0] ∧ (t.store.mstable 1).nalloc = 1 ∧
      t.PutInvariant sampleSetting := by
  have hrun : (Run.exec PutAllowed (Traced.step sampleSetting) ⟨sampleStore, []⟩
      (samplePuts 1 0 16 ++ samplePuts 2 0 1)).map
      (fun t => (t.store.fullMsinfoq, (t.store.mstable 1).nalloc)) = some ([0], 1) := by
    decide +kernel
  obtain ⟨t, hreach, hview⟩ := Run.exists_reaches_of_exec hrun
  exact ⟨t, hreach, congrArg Prod.fst hview, congrArg Prod.snd hview,
    (conPutKV_invariant sampleSetting (by decide) _ _ t hreach).1⟩

end Traced

end PromTCS
