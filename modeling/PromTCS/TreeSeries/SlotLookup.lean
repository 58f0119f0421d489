import PromTCS.TreeSeries.PutRuns

/-!
# The slot of a series

The log cleaner asks `GetMemSlabInfo` for the number of the slot of a series in a memory slab,
to read the transaction number of the series from the class. The slots hold the ids folded by
the size of the class table, and `GetMemSlabInfo` compares them with the ids of the series as
they are. The transaction numbers are kept by class: a slot of a new slab of the class takes the
place of the slot with its number in the slab before.
-/

namespace PromTCS

open List Function

namespace TreeSeries

/-- `GetMemSlabInfo(source_id, metric_id, sid, idx)`: what `idx` holds afterwards. -/
def getMemSlabInfo (s : TreeSeries) (sourceId metricId sid idx : ℕ) : ℕ :=
  (s.mstable sid).slots.zipIdx.foldl
    (fun idx e => if e.1.sourceId = sourceId ∧ e.1.metricId = metricId then e.2 else idx) idx

def getSlabClassInfo (s : TreeSeries) (sourceId metricId : ℕ) : SlabClass :=
  s.ctable (classOf sourceId metricId)

structure PutEffect (s : TreeSeries) (call : PutCall) (m : ℕ) (s' : TreeSeries) : Prop where
  taken : (s.slabOf (classOf call.sourceId call.metricId) = some m ∧
      s'.freeMsinfoq = s.freeMsinfoq) ∨
    (s.slabOf (classOf call.sourceId call.metricId) = none ∧ s.freeMsinfoq = m :: s'.freeMsinfoq)
  evict : s'.memEvictSinfoq = []
  other : ∀ m' ≠ m, s'.mstable m' = s.mstable m'
  cid : (s'.mstable m).cid = classOf call.sourceId call.metricId
  slots : (∃ j slot, findSlot (s.mstable m) call = some j ∧ (s.mstable m).slots[j]? = some slot ∧
      (s'.mstable m).slots =
        (s.mstable m).slots.set j { slot with endTime := call.endTime.toNat }) ∨
    (findSlot (s.mstable m) call = none ∧
      (s'.mstable m).getSinfoSourceID (newSlot call) = call.sourceId ∧
      (s'.mstable m).getSinfoMetricID (newSlot call) = call.metricId ∧
      (s'.mstable m).slots = (s.mstable m).slots ++ [newSlot call])
  txn : (s'.ctable (classOf call.sourceId call.metricId)).txn =
    putTxn (s.mstable m) call (s.ctable (classOf call.sourceId call.metricId)).txn
  otherClass : ∀ c ≠ classOf call.sourceId call.metricId, s'.ctable c = s.ctable c
  current : ∀ m', s'.slabOf (classOf call.sourceId call.metricId) = some m' → m' = m

theorem conPutKV_effect {cfg : Setting} {s s' : TreeSeries} {call : PutCall} {m : ℕ}
    (hevict : s.memEvictSinfoq = []) (hput : s.conPutKV cfg call = .ok (some m, s')) :
    PutEffect s call m s' := by
  rcases conPutKV_cases hput with ⟨hnone, -⟩ | ⟨m₁, s₁, hm, hcur, hslab⟩
  · cases hnone
  obtain rfl := Option.some.inj hm
  have htxn := txn_putInSlab hslab
  obtain ⟨-, -, slots, tree, txn, hstep, rfl⟩ := putInSlab_eq_ok hslab
  have hc := slabOf_currentSlab_self hcur
  -- The slab is chosen without changing what it holds.
  have hchoice : ((s.slabOf call.cid = some m ∧
        s₁.freeMsinfoq = s.freeMsinfoq) ∨
      (s.slabOf call.cid = none ∧
        s.freeMsinfoq = m :: s₁.freeMsinfoq)) ∧
      s₁.memEvictSinfoq = [] ∧ (∀ m' ≠ m, s₁.mstable m' = s.mstable m') ∧
      (s₁.mstable m).slots = (s.mstable m).slots ∧
      (∀ c, (s₁.ctable c).txn = (s.ctable c).txn) ∧
      ∀ c ≠ call.cid, s₁.ctable c = s.ctable c := by
    rcases currentSlab_cases hcur with ⟨hcls, rfl⟩ | ⟨hcls, rest, hfree, rfl⟩ |
      ⟨-, -, d, rest, hev, -⟩
    · exact ⟨Or.inl ⟨hcls, rfl⟩, hevict, fun _ _ => rfl, rfl, fun _ => rfl, fun _ _ => rfl⟩
    · refine ⟨Or.inr ⟨hcls, hfree⟩, hevict, fun m' hm' => update_of_ne hm' _ _, ?_,
        fun c => ?_, fun c hc => update_of_ne hc _ _⟩
      · simp
      · by_cases hcc : c = call.cid
        · subst hcc
          simp
        · simp [hcc]
    · rw [hevict] at hev
      cases hev
  obtain ⟨htaken, hevict₁, hother₁, hslots₁, htxn₁, hclass₁⟩ := hchoice
  have hself := s₁.mstable_afterPut_self call m slots tree txn
  have hfind : ∀ info : SlabInfo, info.slots = (s.mstable m).slots →
      findSlot info call = findSlot (s.mstable m) call := by
    intro info hinfo
    rw [findSlot, findSlot, hinfo]
  refine ⟨htaken, hevict₁, fun m' hm' => ?_, ?_, ?_, ?_, fun c hcc => ?_, fun m' hm' => ?_⟩
  · exact (update_of_ne hm' _ _).trans (hother₁ m' hm')
  · rw [hself]
  · rw [hself]
    generalize hinfo : (s₁.mstable m).taking call = info at hstep
    have hslots : info.slots = (s.mstable m).slots := by
      rw [← hinfo]
      exact hslots₁
    cases hstep with
    | extend j slot hf hslot =>
      rw [hfind info hslots] at hf
      rw [hslots] at hslot ⊢
      exact Or.inl ⟨j, slot, hf, hslot, rfl⟩
    | add hf hlen hunfold =>
      rw [hfind info hslots] at hf
      obtain ⟨hsource, hmetric⟩ := of_decide_eq_true hunfold
      exact Or.inr ⟨hf, hsource, hmetric, by rw [hslots]⟩
  · rw [htxn, putTxn, putTxn, hfind _ hslots₁, hslots₁, htxn₁]
  · exact (update_of_ne hcc _ _).trans (hclass₁ c hcc)
  · rw [slabOf_afterPut, update_self] at hm'
    split_ifs at hm'
    exact Option.some.inj (hm'.symm.trans hc)

variable {s s' : TreeSeries} {call : PutCall} {m : ℕ}

theorem putTxn_of_ne {info : SlabInfo} {txn : ℕ → ℤ} {j : ℕ} (hj : j ≠ info.slots.length) :
    putTxn info call txn j = txn j := by
  unfold putTxn
  cases findSlot info call with
  | some _ => rfl
  | none => exact update_of_ne hj _ _

theorem PutEffect.length_le (heff : PutEffect s call m s') :
    (s.mstable m).slots.length ≤ (s'.mstable m).slots.length ∧ (s'.mstable m).slots ≠ [] := by
  rcases heff.slots with ⟨j, slot, -, hslot, hslots⟩ | ⟨-, -, -, hslots⟩
  · have hj := (List.getElem?_eq_some_iff.1 hslot).1
    rw [hslots, ← length_pos_iff, length_set]
    omega
  · rw [hslots, ← length_pos_iff, length_append, length_singleton]
    omega

theorem PutEffect.slot_cases (heff : PutEffect s call m s') {i : ℕ} {slot : Slot}
    (hslot : (s'.mstable m).slots[i]? = some slot) :
    (∃ old, (s.mstable m).slots[i]? = some old ∧ slot.sourceId = old.sourceId ∧
      slot.metricId = old.metricId) ∨
    (findSlot (s.mstable m) call = none ∧ i = (s.mstable m).slots.length ∧
      slot = newSlot call) := by
  rcases heff.slots with ⟨j, old, -, hold, hslots⟩ | ⟨hfind, -, -, hslots⟩
  · rw [hslots] at hslot
    obtain ⟨b, hb, hsource, hmetric, -⟩ := exists_of_getElem?_set hold hslot
    exact Or.inl ⟨b, hb, hsource, hmetric⟩
  · rw [hslots, getElem?_append] at hslot
    split_ifs at hslot with hi
    · exact Or.inl ⟨slot, hslot, rfl, rfl⟩
    · have hlt := (List.getElem?_eq_some_iff.1 hslot).1
      rw [length_singleton] at hlt
      obtain rfl := mem_singleton.1 (mem_of_getElem? hslot)
      exact Or.inr ⟨hfind, by omega, rfl⟩

end TreeSeries

namespace Traced

open TreeSeries

def opening (t : Traced) (m sourceId metricId : ℕ) : Option Stored :=
  (t.inSlab m).find? fun e => e.call.sourceId == sourceId && e.call.metricId == metricId

/-- Calls of `ConPutKV` and nothing else. -/
def PutOnly (_ : Traced) : Op → Prop
  | .conPutKV _ => True
  | _ => False

instance (t : Traced) : (op : Op) → Decidable (t.PutOnly op)
  | .conPutKV _ => inferInstanceAs (Decidable True)
  | .optBatchWriteLazyFlush => inferInstanceAs (Decidable False)
  | .migrateReadLazyFlush => inferInstanceAs (Decidable False)
  | .forceFlush => inferInstanceAs (Decidable False)

/-- Slab `m` is the last slab of class `c` with a slot of number `j`. -/
def LastWithSlot (t : Traced) (c : ClassId) (j m : ℕ) : Prop :=
  (t.store.mstable m).cid = c ∧ j < (t.store.mstable m).slots.length ∧
    ∀ m' > m, (t.store.mstable m').cid = c → (t.store.mstable m').slots.length ≤ j

structure PutOrder (cfg : Setting) (t : Traced) : Prop where
  kept : t.Kept cfg
  slabs : t.Slabs fun info _ _ => (info.slots.map fun slot => (slot.sourceId, slot.metricId)).Nodup
  evict : t.store.memEvictSinfoq = []
  ascending : t.store.freeMsinfoq.Pairwise (· < ·)
  used_lt : ∀ m, (t.store.mstable m).slots ≠ [] → ∀ f ∈ t.store.freeMsinfoq, m < f
  outside : ∀ m, cfg.nmslab ≤ m → (t.store.mstable m).slots = []
  current : ∀ c m, t.store.slabOf c = some m → (t.store.mstable m).slots ≠ []
  latest : ∀ c m m', t.store.slabOf c = some m → (t.store.mstable m').cid = c →
    (t.store.mstable m').slots ≠ [] → m' ≤ m
  txn : ∀ (c : ClassId) (j m : ℕ) (slot : Slot), t.LastWithSlot c j m →
    (t.store.mstable m).slots[j]? = some slot →
    ∃ e, t.opening m ((t.store.mstable m).getSinfoSourceID slot)
        ((t.store.mstable m).getSinfoMetricID slot) = some e ∧
      (t.store.ctable c).txn j = e.call.txn

theorem putOrder_initStable (cfg : Setting) (mslab dslab : ℕ → Slab) :
    PutOrder cfg ⟨initStable cfg mslab dslab, []⟩ where
  kept := placed_initStable _ cfg mslab dslab
  slabs := slabRule_nodup.initStable cfg mslab dslab
  evict := rfl
  ascending := pairwise_lt_range
  used_lt m hm := absurd rfl hm
  outside _ _ := rfl
  current c m hc := by simp [slabOf, initStable] at hc
  latest c m m' hc := by simp [slabOf, initStable] at hc
  txn c j m slot hlast := absurd hlast.2.1 (Nat.not_lt_zero j)

theorem PutOrder.distinct {cfg : Setting} {t : Traced} (h : t.PutOrder cfg) {m i j : ℕ}
    {a b : Slot} (ha : (t.store.mstable m).slots[i]? = some a)
    (hb : (t.store.mstable m).slots[j]? = some b) (hsource : a.sourceId = b.sourceId)
    (hmetric : a.metricId = b.metricId) : i = j := by
  have hnodup := h.slabs (.mem m) fun d hd => by
    change (m, d) ∈ t.store.memEvictSinfoq at hd
    rw [h.evict] at hd
    cases hd
  refine (getElem?_inj ?_ hnodup).1 ?_
  · rw [length_map]
    exact (List.getElem?_eq_some_iff.1 ha).1
  · change ((t.store.mstable m).slots.map _)[i]? = ((t.store.mstable m).slots.map _)[j]?
    rw [getElem?_map, getElem?_map, ha, hb, Option.map_some, Option.map_some, hsource, hmetric]

section Step

variable {cfg : Setting} {t : Traced} {call : PutCall} {m : ℕ} {s' : TreeSeries}
  (h : t.PutOrder cfg) (heff : PutEffect t.store call m s')

include h heff

theorem PutOrder.slabOf_of_slots (hslots : (t.store.mstable m).slots ≠ []) :
    t.store.slabOf call.cid = some m ∧
      (t.store.mstable m).cid = call.cid := by
  rcases heff.taken with ⟨hc, -⟩ | ⟨-, hfree⟩
  · exact ⟨hc, (h.kept.current _ m hc).resolve_left hslots⟩
  · exact absurd (h.kept.free m (hfree ▸ mem_cons_self)) hslots

theorem PutOrder.le_of_class {m' : ℕ}
    (hcid : (t.store.mstable m').cid = call.cid)
    (hslots : (t.store.mstable m').slots ≠ []) : m' ≤ m := by
  rcases heff.taken with ⟨hc, -⟩ | ⟨-, hfree⟩
  · exact h.latest _ m m' hc hcid hslots
  · exact (h.used_lt m' hslots m (hfree ▸ mem_cons_self)).le

omit heff in
theorem PutOrder.opening_new (hfind : findSlot (t.store.mstable m) call = none) :
    opening ⟨s', t.ledger ++ [⟨call, some (.mem m)⟩]⟩ m call.sourceId call.metricId =
      some ⟨call, some (.mem m)⟩ := by
  have hnone : (t.inSlab m).find? (fun e => e.call.sourceId == call.sourceId &&
      e.call.metricId == call.metricId) = none := by
    refine find?_eq_none.2 fun e he hids => ?_
    rw [Bool.and_eq_true, beq_iff_eq, beq_iff_eq] at hids
    obtain ⟨hin, hslab⟩ := mem_filter.1 he
    obtain ⟨-, -, slot, hslot, hs, hm⟩ := h.kept.placed e hin _ (of_decide_eq_true hslab)
    have hnot := findIdx?_eq_none_iff.1 hfind slot hslot
    rw [hids.1] at hs
    rw [hids.2] at hm
    simp [hs, hm] at hnot
  rw [opening, inSlab_put_self, find?_append, hnone]
  simp

omit h heff in
theorem getSinfo_eq {info info' : SlabInfo} {a b : Slot} (hcid : info'.cid = info.cid)
    (hsource : a.sourceId = b.sourceId) (hmetric : a.metricId = b.metricId) :
    info'.getSinfoSourceID a = info.getSinfoSourceID b ∧
      info'.getSinfoMetricID a = info.getSinfoMetricID b := by
  simp only [SlabInfo.getSinfoSourceID, SlabInfo.getSinfoMetricID, hcid, hsource, hmetric,
    and_self]

theorem PutOrder.txn_put (c : ClassId) (j m' : ℕ) (slot : Slot)
    (hlast : LastWithSlot ⟨s', t.ledger ++ [⟨call, some (.mem m)⟩]⟩ c j m')
    (hslot : (s'.mstable m').slots[j]? = some slot) :
    ∃ e, opening ⟨s', t.ledger ++ [⟨call, some (.mem m)⟩]⟩ m'
        ((s'.mstable m').getSinfoSourceID slot) ((s'.mstable m').getSinfoMetricID slot) = some e ∧
      (s'.ctable c).txn j = e.call.txn := by
  obtain ⟨hcid, hlen, hafter⟩ := hlast
  have hlength := heff.length_le.1
  by_cases hm : m' = m
  · subst hm
    obtain rfl : _ = c := heff.cid.symm.trans hcid
    rcases heff.slot_cases hslot with ⟨old, hold, hs, hmt⟩ | ⟨hfind, rfl, rfl⟩
    · -- A slot from before: the slab was the current one of the class already.
      have hne : (t.store.mstable m').slots ≠ [] :=
        ne_nil_of_mem (mem_of_getElem? hold)
      obtain ⟨-, hclass⟩ := h.slabOf_of_slots heff hne
      have hold' : t.LastWithSlot call.cid j m' := by
        refine ⟨hclass, (List.getElem?_eq_some_iff.1 hold).1, fun m₁ hm₁ hc₁ => ?_⟩
        have hother := heff.other m₁ hm₁.ne'
        exact hother ▸ hafter m₁ hm₁ (hother ▸ hc₁)
      obtain ⟨e, he, htxn⟩ := h.txn _ j m' old hold' hold
      refine ⟨e, ?_, ?_⟩
      · obtain ⟨hsource, hmetric⟩ := getSinfo_eq (heff.cid.trans hclass.symm) hs hmt
        rw [hsource, hmetric, opening, inSlab_put_self, find?_append]
        rw [opening] at he
        rw [he]
        rfl
      · rw [heff.txn, putTxn_of_ne (List.getElem?_eq_some_iff.1 hold).1.ne, htxn]
    · obtain ⟨j, old, hf, -⟩ | ⟨-, hs, hmt, -⟩ := heff.slots
      · rw [hfind] at hf
        cases hf
      · refine ⟨⟨call, some (.mem m')⟩, ?_, ?_⟩
        · rw [hs, hmt]
          exact h.opening_new hfind
        · rw [heff.txn, putTxn, hfind]
          exact update_self _ _ _
  · have hother := heff.other m' hm
    rw [hother] at hcid hlen hslot ⊢
    have hne : (t.store.mstable m').slots ≠ [] := ne_nil_of_mem (mem_of_getElem? hslot)
    have hopening : ∀ sourceId metricId,
        opening ⟨s', t.ledger ++ [⟨call, some (.mem m)⟩]⟩ m' sourceId metricId =
          t.opening m' sourceId metricId := by
      intro sourceId metricId
      rw [opening, inSlab_put_of_ne hm, opening]
    rw [hopening]
    -- What comes after `m'` in its class did not get shorter.
    have hlast : t.LastWithSlot c j m' := by
      refine ⟨hcid, hlen, fun m₁ hm₁ hc₁ => ?_⟩
      by_cases hmm : m₁ = m
      · subst hmm
        by_cases hslots : (t.store.mstable m₁).slots = []
        · rw [hslots]
          exact Nat.zero_le j
        · obtain ⟨-, hclass⟩ := h.slabOf_of_slots heff hslots
          exact hlength.trans (hafter m₁ hm₁ (heff.cid.trans (hclass.symm.trans hc₁)))
      · have hother₁ := heff.other m₁ hmm
        exact hother₁ ▸ hafter m₁ hm₁ (hother₁ ▸ hc₁)
    obtain ⟨e, he, htxn⟩ := h.txn c j m' slot hlast hslot
    refine ⟨e, he, ?_⟩
    by_cases hcc : c = call.cid
    · subst hcc
      have hle := h.le_of_class heff hcid hne
      have hbound := hafter m (lt_of_le_of_ne hle hm) heff.cid
      rw [heff.txn, ← htxn]
      rcases heff.slots with ⟨i, old, hf, -⟩ | ⟨-, -, -, hslots⟩
      · rw [putTxn, hf]
      · refine putTxn_of_ne ?_
        change (s'.mstable m).slots.length ≤ j at hbound
        rw [hslots, length_append, length_singleton] at hbound
        omega
    · rw [heff.otherClass c hcc, htxn]

theorem PutOrder.put (hkept : Kept cfg ⟨s', t.ledger ++ [⟨call, some (.mem m)⟩]⟩)
    (hslabs : Slabs (fun info _ _ => (info.slots.map fun slot =>
      (slot.sourceId, slot.metricId)).Nodup) ⟨s', t.ledger ++ [⟨call, some (.mem m)⟩]⟩) :
    PutOrder cfg ⟨s', t.ledger ++ [⟨call, some (.mem m)⟩]⟩ := by
  have hfree : ∀ f ∈ s'.freeMsinfoq, f ∈ t.store.freeMsinfoq ∧ m < f := by
    intro f hf
    rcases heff.taken with ⟨hc, hsame⟩ | ⟨-, hpop⟩
    · rw [hsame] at hf
      exact ⟨hf, h.used_lt m (h.current _ m hc) f hf⟩
    · have hasc := h.ascending
      rw [hpop, pairwise_cons] at hasc
      exact ⟨hpop ▸ mem_cons_of_mem m hf, hasc.1 f hf⟩
  have hcount : 0 < t.store.memCount m := by
    unfold memCount
    rcases heff.taken with ⟨hc, -⟩ | ⟨-, hpop⟩
    · have := Places.occupants_pos hc
      omega
    · have := count_pos_iff.2 (hpop ▸ mem_cons_self : m ∈ t.store.freeMsinfoq)
      omega
  have hclass : ∀ c ≠ call.cid, s'.slabOf c = t.store.slabOf c := by
    intro c hcc
    rw [slabOf, heff.otherClass c hcc, slabOf]
  refine ⟨hkept, hslabs, heff.evict, ?_, fun m' hm' f hf => ?_, fun m' hm' => ?_,
    fun c m' hc => ?_, fun c m₁ m' hc hcid hslots => ?_, h.txn_put heff⟩
  · rcases heff.taken with ⟨-, hsame⟩ | ⟨-, hpop⟩
    · exact hsame ▸ h.ascending
    · exact (pairwise_cons.1 (hpop ▸ h.ascending)).2
  · by_cases hm : m' = m
    · exact hm ▸ (hfree f hf).2
    · rw [heff.other m' hm] at hm'
      exact h.used_lt m' hm' f (hfree f hf).1
  · have hlt := h.kept.owned.lt_of_memCount hcount
    rw [heff.other m' (hlt.trans_le hm').ne']
    exact h.outside m' hm'
  · by_cases hm : m' = m
    · exact hm ▸ heff.length_le.2
    · have hcc : c ≠ call.cid := by
        rintro rfl
        exact hm (heff.current m' hc)
      rw [heff.other m' hm]
      exact h.current c m' (hclass c hcc ▸ hc)
  · by_cases hcc : c = call.cid
    · subst hcc
      obtain rfl := heff.current m₁ hc
      by_cases hm : m' = m₁
      · exact hm.le
      · rw [heff.other m' hm] at hcid hslots
        exact h.le_of_class heff hcid hslots
    · have hm : m' ≠ m := by
        rintro rfl
        exact hcc (hcid.symm.trans heff.cid)
      rw [heff.other m' hm] at hcid hslots
      exact h.latest c m₁ m' (hclass c hcc ▸ hc) hcid hslots

end Step

theorem putOrder_of_reaches {cfg : Setting} {t₀ t : Traced} (h : t₀.PutOrder cfg)
    (hrun : Run.Reaches PutOnly (Traced.step cfg) t₀ t) : t.PutOrder cfg := by
  refine hrun.invariant h fun t op t' h hop hok => ?_
  cases op with
  | conPutKV call =>
    have hkept := h.kept.step (by simp) hok
    have hslabs := h.slabs.step slabRule_nodup h.kept (by simp) (fun _ _ => trivial) hok
    obtain ⟨⟨sid, s'⟩, hput, rfl⟩ := Run.map_eq_ok hok
    cases sid with
    | none =>
      obtain ⟨-, rfl⟩ | ⟨m, s₁, hm, -⟩ := conPutKV_cases hput
      · exact h
      · cases hm
    | some m => exact h.put (conPutKV_effect h.evict hput) hkept hslabs
  | optBatchWriteLazyFlush => exact hop.elim
  | migrateReadLazyFlush => exact hop.elim
  | forceFlush => exact hop.elim

/-! ## The lookup -/

theorem foldl_zipIdx_of_forall {p : Slot → Prop} [DecidablePred p] {l : List Slot} {k idx : ℕ}
    (h : ∀ a ∈ l, ¬ p a) :
    (l.zipIdx k).foldl (fun idx e => if p e.1 then e.2 else idx) idx = idx := by
  induction l generalizing k with
  | nil => rfl
  | cons a l ih =>
    rw [zipIdx_cons, foldl_cons, if_neg (h a mem_cons_self),
      ih fun b hb => h b (mem_cons_of_mem a hb)]

variable {j : ℕ}

theorem foldl_zipIdx_of_unique {p : Slot → Prop} [DecidablePred p] {l : List Slot} {k idx : ℕ}
    {slot : Slot} (hslot : l[j]? = some slot) (hp : p slot)
    (hunique : ∀ i a, l[i]? = some a → p a → i = j) :
    (l.zipIdx k).foldl (fun idx e => if p e.1 then e.2 else idx) idx = k + j := by
  induction l generalizing k j idx with
  | nil => cases hslot
  | cons a l ih =>
    rw [zipIdx_cons, foldl_cons]
    cases j with
    | zero =>
      obtain rfl : a = slot := Option.some.inj hslot
      rw [if_pos hp]
      refine foldl_zipIdx_of_forall fun b hb hpb => ?_
      obtain ⟨i, hi⟩ := mem_iff_getElem?.1 hb
      exact absurd (hunique (i + 1) b hi hpb) (Nat.succ_ne_zero i)
    | succ j =>
      rw [ih hslot fun i b hi hpb => Nat.succ.inj (hunique (i + 1) b hi hpb)]
      omega

variable {cfg : Setting} {t : Traced}

/-- The lookup of the log cleaner is right for the series with slot `j` of slab `m`: whatever
`idx` held before, it holds the number of the slot, and the number of the class at `idx` is that
of the put that opened the slot. -/
def LookupRight (t : Traced) (sourceId metricId m j : ℕ) : Prop :=
  ∀ idx, t.store.getMemSlabInfo sourceId metricId m idx = j ∧
    (t.opening m sourceId metricId).map (fun e => e.call.txn) =
      some ((t.store.getSlabClassInfo sourceId metricId).txn
        (t.store.getMemSlabInfo sourceId metricId m idx))

theorem PutOrder.getMemSlabInfo_iff (h : t.PutOrder cfg) {sourceId metricId m : ℕ} {slot : Slot}
    (hslot : (t.store.mstable m).slots[j]? = some slot)
    (hsource : (t.store.mstable m).getSinfoSourceID slot = sourceId)
    (hmetric : (t.store.mstable m).getSinfoMetricID slot = metricId) :
    (∀ idx, t.store.getMemSlabInfo sourceId metricId m idx = j) ↔
      sourceId = 0 ∧ metricId = 0 := by
  have hfound : ∀ i a, (t.store.mstable m).slots[i]? = some a →
      a.sourceId = sourceId ∧ a.metricId = metricId →
      ∀ idx, t.store.getMemSlabInfo sourceId metricId m idx = i := by
    intro i a hi ha idx
    refine (foldl_zipIdx_of_unique (p := fun slot => slot.sourceId = sourceId ∧
      slot.metricId = metricId) hi ha fun i' b hi' hb => ?_).trans (Nat.zero_add i)
    exact h.distinct hi' hi (hb.1.trans ha.1.symm) (hb.2.trans ha.2.symm)
  have hfold : (slot.sourceId = sourceId ∧ slot.metricId = metricId) ↔
      sourceId = 0 ∧ metricId = 0 := by
    simp only [SlabInfo.getSinfoSourceID, SlabInfo.getSinfoMetricID, cxNum, cyNum] at *
    omega
  rw [← hfold]
  constructor
  · intro hall
    by_cases hmatch : ∃ (i : ℕ) (a : Slot), (t.store.mstable m).slots[i]? = some a ∧
        a.sourceId = sourceId ∧ a.metricId = metricId
    · obtain ⟨i, a, hi, ha⟩ := hmatch
      obtain rfl : i = j := (hfound i a hi ha 0).symm.trans (hall 0)
      obtain rfl : a = slot := Option.some.inj (hi.symm.trans hslot)
      exact ha
    · -- Nothing is found, and `idx` stays what it was.
      have hkeep : t.store.getMemSlabInfo sourceId metricId m (j + 1) = j + 1 := by
        refine foldl_zipIdx_of_forall (p := fun slot => slot.sourceId = sourceId ∧
          slot.metricId = metricId) fun a ha hp => hmatch ?_
        obtain ⟨i, hi⟩ := mem_iff_getElem?.1 ha
        exact ⟨i, a, hi, hp⟩
      exact absurd (hkeep.symm.trans (hall (j + 1))) (Nat.succ_ne_self j)
  · intro hmatch
    exact hfound j slot hslot hmatch

theorem PutOrder.exists_lastWithSlot (h : t.PutOrder cfg) {c : ClassId} {m : ℕ}
    (hcid : (t.store.mstable m).cid = c) (hj : j < (t.store.mstable m).slots.length) :
    ∃ m', t.LastWithSlot c j m' := by
  classical
  have hin : ∀ m', j < (t.store.mstable m').slots.length → m' ≤ cfg.nmslab := by
    intro m' hj'
    by_contra hout
    rw [h.outside m' (by omega)] at hj'
    exact Nat.not_lt_zero j hj'
  let P := fun m' => (t.store.mstable m').cid = c ∧ j < (t.store.mstable m').slots.length
  have hspec : P (Nat.findGreatest P cfg.nmslab) := Nat.findGreatest_spec (hin m hj) ⟨hcid, hj⟩
  refine ⟨Nat.findGreatest P cfg.nmslab, hspec.1, hspec.2, fun m' hm' hcid' => ?_⟩
  by_contra hlong
  have hj' := Nat.not_le.1 hlong
  exact Nat.findGreatest_is_greatest hm' (hin m' hj') ⟨hcid', hj'⟩

/-- In every state of a run of puts the lookup is right for a series if and only if both ids of
the series are 0 and the slot with its number in the last slab of the class was opened with its
transaction number. -/
theorem getMemSlabInfo_right_iff (cfg : Setting) (mslab dslab : ℕ → Slab) (t : Traced)
    (hrun : Run.Reaches PutOnly (Traced.step cfg) ⟨initStable cfg mslab dslab, []⟩ t)
    (sourceId metricId m j : ℕ) (slot : Slot)
    (hslot : (t.store.mstable m).slots[j]? = some slot)
    (hsource : (t.store.mstable m).getSinfoSourceID slot = sourceId)
    (hmetric : (t.store.mstable m).getSinfoMetricID slot = metricId) :
    t.LookupRight sourceId metricId m j ↔ sourceId = 0 ∧ metricId = 0 ∧
      ∀ m' slot', t.LastWithSlot (classOf sourceId metricId) j m' →
        (t.store.mstable m').slots[j]? = some slot' →
        (t.opening m sourceId metricId).map (fun e => e.call.txn) =
          (t.opening m' ((t.store.mstable m').getSinfoSourceID slot')
            ((t.store.mstable m').getSinfoMetricID slot')).map fun e => e.call.txn := by
  have h := putOrder_of_reaches (putOrder_initStable cfg mslab dslab) hrun
  have hidx := h.getMemSlabInfo_iff hslot hsource hmetric
  have hcid : (t.store.mstable m).cid = classOf sourceId metricId := by
    rw [← hsource, ← hmetric, classOf_getSinfo]
  have hlt := (List.getElem?_eq_some_iff.1 hslot).1
  rw [← and_assoc, ← hidx]
  constructor
  · intro hright
    refine ⟨fun idx => (hright idx).1, fun m' slot' hlast hslot' => ?_⟩
    obtain ⟨e, he, htxn⟩ := h.txn _ j m' slot' hlast hslot'
    have hopen := (hright 0).2
    rw [(hright 0).1, getSlabClassInfo, htxn] at hopen
    rw [hopen, he]
    rfl
  · rintro ⟨hall, hsame⟩ idx
    obtain ⟨m', hlast⟩ := h.exists_lastWithSlot hcid hlt
    have hslot' := getElem?_eq_getElem hlast.2.1
    obtain ⟨e, he, htxn⟩ := h.txn _ j m' _ hlast hslot'
    refine ⟨hall idx, ?_⟩
    rw [hall idx, hsame m' _ hlast hslot', he, getSlabClassInfo, htxn]
    rfl

/-- A put of the series (0, 0). -/
theorem getMemSlabInfo_right_zero :
    ∃ t, Run.Reaches PutOnly (Traced.step sampleSetting) ⟨sampleStore, []⟩ t ∧
      t.LookupRight 0 0 0 0 := by
  have hrun : (Run.exec PutOnly (Traced.step sampleSetting) ⟨sampleStore, []⟩
      [.conPutKV { samplePut 0 0 with metricId := 0, txn := 7 }]).map
      (fun t => ((t.store.mstable 0).cid, (t.store.mstable 0).slots,
        (List.range 12).all fun m => m == 0 || (t.store.mstable m).slots.isEmpty)) =
      some (classOf 0 0, [⟨0, 0, 0, 1⟩], true) := by
    decide +kernel
  obtain ⟨t, hreach, hview⟩ := Run.exists_reaches_of_exec hrun
  obtain ⟨hcid, hrest⟩ := Prod.mk.inj hview
  obtain ⟨hslots, hempty⟩ := Prod.mk.inj hrest
  have hsource : (t.store.mstable 0).getSinfoSourceID ⟨0, 0, 0, 1⟩ = 0 := by
    rw [SlabInfo.getSinfoSourceID, hcid]
    rfl
  have hmetric : (t.store.mstable 0).getSinfoMetricID ⟨0, 0, 0, 1⟩ = 0 := by
    rw [SlabInfo.getSinfoMetricID, hcid]
    rfl
  refine ⟨t, hreach, (getMemSlabInfo_right_iff sampleSetting _ _ t hreach 0 0 0 0 ⟨0, 0, 0, 1⟩
    (by rw [hslots]; rfl) hsource hmetric).2 ⟨rfl, rfl, fun m' slot' hlast hslot' => ?_⟩⟩
  have hout := (putOrder_of_reaches (putOrder_initStable sampleSetting _ _) hreach).outside m'
  obtain rfl : m' = 0 := by
    by_contra hm
    have hnil : (t.store.mstable m').slots = [] := by
      rcases Nat.lt_or_ge m' 12 with hlt | hge
      · simpa [hm] using all_eq_true.1 hempty m' (mem_range.2 hlt)
      · exact hout hge
    rw [hnil] at hslot'
    cases hslot'
  rw [hslots] at hslot'
  obtain rfl := Option.some.inj hslot'
  rw [hsource, hmetric]

/-- Slab 0 has one slot, of series (1, 1), and `idx` stays what it was. -/
theorem getMemSlabInfo_wrong_slot :
    ∃ t, Run.Reaches PutOnly (Traced.step sampleSetting) ⟨sampleStore, []⟩ t ∧
      (t.store.mstable 0).slots.map ((t.store.mstable 0).getSinfoSourceID) = [1] ∧
      (t.store.mstable 0).slots.map ((t.store.mstable 0).getSinfoMetricID) = [1] ∧
      ¬ t.LookupRight 1 1 0 0 := by
  have hrun : (Run.exec PutOnly (Traced.step sampleSetting) ⟨sampleStore, []⟩
      [.conPutKV (samplePut 1 0)]).map
      (fun t => ((t.store.mstable 0).slots.map ((t.store.mstable 0).getSinfoSourceID),
        (t.store.mstable 0).slots.map ((t.store.mstable 0).getSinfoMetricID),
        t.store.getMemSlabInfo 1 1 0 5)) = some ([1], [1], 5) := by
    decide +kernel
  obtain ⟨t, hreach, hview⟩ := Run.exists_reaches_of_exec hrun
  obtain ⟨hsource, hrest⟩ := Prod.mk.inj hview
  obtain ⟨hmetric, hidx⟩ := Prod.mk.inj hrest
  refine ⟨t, hreach, hsource, hmetric, fun hright => ?_⟩
  have hwrong := (hright 5).1
  rw [hidx] at hwrong
  cases hwrong

end Traced

end PromTCS
