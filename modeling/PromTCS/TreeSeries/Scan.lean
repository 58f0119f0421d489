import PromTCS.Lib.RangeScan
import PromTCS.TreeSeries.PutRuns

/-!
# Scan

`Scan` walks the index from the key of the first time of a query to that of the last, which it
leaves out, and pairs every slab it meets with its contents. Only the first and the last time of
a slot are keys. A slab is therefore missed when its slot encloses the query, and when the slot
starts where the query ends.
-/

namespace PromTCS

open List Function

def SlabInfo.SlotFor (info : SlabInfo) (sourceId metricId : ℕ) (slot : Slot) : Prop :=
  slot ∈ info.slots ∧ info.getSinfoSourceID slot = sourceId ∧
    info.getSinfoMetricID slot = metricId

/-- `scan` of the index, with the left end and without the right one. -/
def MassTree.scan (t : MassTree) (lkey rkey : Key) : List (Key × Place) :=
  RangeScan.scan (fun e => Key.cmp e.1 lkey == .lt) (fun e => Key.cmp e.1 rkey == .lt) t.toList

namespace TreeSeries

/-- `ScanMT(source_id, metric_id, start_time, end_time, sinfo_arr)` with an empty array. -/
def scanMT (s : TreeSeries) (sourceId metricId startTime endTime : ℕ) : List Place :=
  ((s.massTree.scan ⟨sourceId, metricId, startTime⟩ ⟨sourceId, metricId, endTime⟩).map
    Prod.snd).foldl RangeScan.push []

/-- `slab_id_` of a slab. -/
def slabId : Place → ℕ
  | .mem m => m
  | .disk d => d

/-- `Scan(source_id, metric_id, start_time, end_time, slab_arr)`. The slabs with the id
`UINT32_MAX` are passed over when the contents are gathered, and the contents are then paired
with the slabs found from the first one on. -/
def scan (s : TreeSeries) (sourceId metricId startTime endTime : ℕ) : List (Place × Slab) :=
  let sinfoArr := s.scanMT sourceId metricId startTime endTime
  sinfoArr.zip ((sinfoArr.filter fun p => slabId p ≠ 2 ^ 32 - 1).map s.slabAt)

structure ScanExact (s : TreeSeries) (sourceId metricId startTime endTime : ℕ) : Prop where
  mem_iff : ∀ p, p ∈ (s.scan sourceId metricId startTime endTime).map Prod.fst ↔
    ∃ slot, (s.sinfo p).SlotFor sourceId metricId slot ∧ slot.startTime ≤ endTime ∧
      startTime ≤ slot.endTime
  ordered : ((s.scan sourceId metricId startTime endTime).map Prod.fst).Pairwise fun p q =>
    p ≠ q ∧ ∀ a b, (s.sinfo p).SlotFor sourceId metricId a →
      (s.sinfo q).SlotFor sourceId metricId b → a.endTime < b.startTime
  contents : ∀ e ∈ s.scan sourceId metricId startTime endTime, e.2 = s.slabAt e.1

end TreeSeries

/-! ## The walk over the index -/

namespace Key

theorem cmp_lt_iff (k : Key) (s m t : ℕ) : cmp k ⟨s, m, t⟩ = .lt ↔
    k.sourceId < s ∨ k.sourceId = s ∧ (k.metricId % 256 < m % 256 ∨
      k.metricId % 256 = m % 256 ∧ (k.metricId / 256 < m / 256 ∨
        k.metricId / 256 = m / 256 ∧ k.time < t)) := by
  simp only [cmp, compareLex, compareOn, Ordering.then_eq_lt, Nat.compare_eq_lt,
    Nat.compare_eq_eq]

theorem between_iff (k : Key) (s m a b : ℕ) :
    (cmp k ⟨s, m, a⟩ ≠ .lt ∧ cmp k ⟨s, m, b⟩ = .lt) ↔
      k.sourceId = s ∧ k.metricId = m ∧ a ≤ k.time ∧ k.time < b := by
  rw [Ne, cmp_lt_iff, cmp_lt_iff]
  omega

end Key

namespace MassTree

theorem mem_scan (t : MassTree) (s m a b : ℕ) (k : Key) (p : Place) :
    (k, p) ∈ t.scan ⟨s, m, a⟩ ⟨s, m, b⟩ ↔
      t[k]? = some p ∧ k.sourceId = s ∧ k.metricId = m ∧ a ≤ k.time ∧ k.time < b := by
  have hdown : ∀ c {x y : Key × Place}, Key.cmp x.1 y.1 = .lt → (Key.cmp y.1 c == .lt) = true →
      (Key.cmp x.1 c == .lt) = true := by
    intro c x y hxy hy
    rw [beq_iff_eq] at hy ⊢
    exact Std.TransCmp.lt_trans hxy hy
  rw [scan, RangeScan.mem_scan Std.TreeMap.ordered_keys_toList (hdown _) (hdown _),
    Std.TreeMap.mem_toList_iff_getElem?_eq_some, ← Key.between_iff, beq_iff_eq, beq_eq_false_iff_ne]

theorem pairwise_scan (t : MassTree) (s m a b : ℕ) :
    (t.scan ⟨s, m, a⟩ ⟨s, m, b⟩).Pairwise fun x y => x.1.time < y.1.time := by
  have hsorted : (t.scan ⟨s, m, a⟩ ⟨s, m, b⟩).Pairwise fun x y => Key.cmp x.1 y.1 = .lt :=
    Std.TreeMap.ordered_keys_toList.sublist (RangeScan.scan_sublist _ _ _)
  refine hsorted.imp_of_mem fun {x y} hx hy hxy => ?_
  obtain ⟨-, hs, hm, -⟩ := (mem_scan t s m a b x.1 x.2).1 hx
  obtain ⟨-, hs', hm', -⟩ := (mem_scan t s m a b y.1 y.2).1 hy
  have hlt := (Key.cmp_lt_iff x.1 y.1.sourceId y.1.metricId y.1.time).1 hxy
  rw [hs, hs', hm, hm'] at hlt
  omega

end MassTree

namespace Traced

open TreeSeries

/-! ## Slots of one series -/

structure Separated (t : Traced) : Prop where
  apart : ∀ {sourceId metricId m m' : ℕ} {a b : Slot},
    (t.store.mstable m).SlotFor sourceId metricId a →
    (t.store.mstable m').SlotFor sourceId metricId b → m ≠ m' →
    a.endTime < b.startTime ∨ b.endTime < a.startTime
  latest : ∀ {c : ClassId} {sourceId metricId m m' : ℕ} {a b : Slot},
    t.store.slabOf c = some m → (t.store.mstable m).SlotFor sourceId metricId a →
    (t.store.mstable m').SlotFor sourceId metricId b → m' ≠ m → b.endTime < a.startTime

theorem separated_initStable (cfg : Setting) (mslab dslab : ℕ → Slab) :
    Separated ⟨initStable cfg mslab dslab, []⟩ where
  apart ha := absurd ha.1 not_mem_nil
  latest _ ha := absurd ha.1 not_mem_nil

variable {cfg : Setting} {t : Traced}
  {sourceId metricId m : ℕ} {slot : Slot} {call : PutCall}

theorem slotFor_congr {info info' : SlabInfo} (hcid : info'.cid = info.cid)
    (hslots : info'.slots = info.slots) :
    info'.SlotFor sourceId metricId slot ↔ info.SlotFor sourceId metricId slot := by
  rw [SlabInfo.SlotFor, SlabInfo.SlotFor, hslots, (getSinfo_congr hcid slot).1,
    (getSinfo_congr hcid slot).2]

theorem Separated.currentSlab (hsep : t.Separated) (h : t.PutState cfg) {c : ClassId}
    {s₁ : TreeSeries} (hcur : t.store.currentSlab c = some (m, s₁)) : Separated ⟨s₁, t.ledger⟩ := by
  have hslab := slabOf_currentSlab hcur
  have hold : ∀ {sourceId metricId m' slot}, (s₁.mstable m').SlotFor sourceId metricId slot →
      (t.store.mstable m').SlotFor sourceId metricId slot := by
    intro sourceId metricId m' slot hslot
    obtain ⟨hcid, hslots, -⟩ := h.mstable_currentSlab hcur m'
    exact (slotFor_congr hcid hslots).1 hslot
  rcases currentSlab_cases hcur with ⟨-, rfl⟩ | ⟨-, rest, hfree, hs₁⟩ | ⟨-, -, d, rest, hev, -⟩
  · exact hsep
  · refine ⟨fun ha hb => hsep.apart (hold ha) (hold hb), fun {c' sourceId metricId m' m''} a b hc'
      ha hb => ?_⟩
    rw [hslab] at hc'
    by_cases hcc : c' = c
    · subst hcc
      rw [update_self, Option.some.injEq] at hc'
      subst hc'
      have hnil := h.indexed.free m (hfree ▸ mem_cons_self)
      exact absurd (hold ha).1 (hnil ▸ not_mem_nil)
    · rw [update_of_ne hcc] at hc'
      exact hsep.latest hc' (hold ha) (hold hb)
  · rw [h.evict] at hev
    cases hev

theorem slotFor_slotStep (hr : InRange call) {info info' : SlabInfo} {tree tree' : MassTree}
    (hcid : info.cid = call.cid) (hcid' : info'.cid = info.cid)
    (h : SlotStep call m info tree info'.slots tree') {a : Slot}
    (ha : info'.SlotFor sourceId metricId a) :
    info.SlotFor sourceId metricId a ∨
      (sourceId = call.sourceId ∧ metricId = call.metricId ∧
        (a.startTime = call.startTime.toNat ∨
          ∃ b, info.SlotFor sourceId metricId b ∧ b.startTime = a.startTime)) := by
  obtain ⟨hmem, hsource, hmetric⟩ := ha
  rw [(getSinfo_congr hcid' a).1] at hsource
  rw [(getSinfo_congr hcid' a).2] at hmetric
  generalize hslots : info'.slots = slots at h hmem
  cases h with
  | extend j old hfind hold =>
    rcases mem_or_eq_of_mem_set hmem with hin | rfl
    · exact Or.inl ⟨hin, hsource, hmetric⟩
    · have hfound := of_findIdx?_eq_some hfind
      simp only [hold, Bool.and_eq_true, beq_iff_eq] at hfound
      obtain ⟨hs, hm⟩ := getSinfo_of_fold hr hcid hfound.1 hfound.2
      exact Or.inr ⟨hsource.symm.trans hs, hmetric.symm.trans hm,
        Or.inr ⟨old, ⟨mem_of_getElem? hold, hsource, hmetric⟩, rfl⟩⟩
  | add hfind hlen hunfold =>
    rcases mem_append.1 hmem with hin | hin
    · exact Or.inl ⟨hin, hsource, hmetric⟩
    · obtain rfl := mem_singleton.1 hin
      obtain ⟨hs, hm⟩ := of_decide_eq_true hunfold
      exact Or.inr ⟨hsource.symm.trans hs, hmetric.symm.trans hm, Or.inl rfl⟩

theorem Indexed.endTime_lt (h : t.Indexed cfg) (hinc : t.Increasing call)
    (hslot : (t.store.mstable m).SlotFor call.sourceId call.metricId slot) :
    slot.endTime < call.startTime.toNat := by
  by_contra hlate
  refine h.not_hasKey_of_increasing hinc (Nat.not_lt.1 hlate) (.mem m) ⟨slot, hslot.1, Or.inr ?_⟩
  rw [PutCall.keyAt, ← hslot.2.1, ← hslot.2.2]
  rfl

theorem Indexed.eq_of_slotFor (h : t.Indexed cfg) {c : ClassId} (hc : t.store.slabOf c = some m)
    (hslot : (t.store.mstable m).SlotFor sourceId metricId slot) :
    c = classOf sourceId metricId := by
  rw [← (h.current c m hc).resolve_left (ne_nil_of_mem hslot.1), ← hslot.2.1, ← hslot.2.2,
    classOf_getSinfo]

theorem Separated.put (hsep : t.Separated) (h : t.PutState cfg) {call : PutCall}
    (hinc : t.Increasing call) (hr : InRange call) {m : ℕ}
    (hc : t.store.slabOf call.cid = some m)
    {slots : List Slot} {tree : MassTree} {txn : ℕ → ℤ}
    (hstep : SlotStep call m ((t.store.mstable m).taking call) t.store.massTree slots tree) :
    Separated ⟨t.store.afterPut call m slots tree txn,
      t.ledger ++ [⟨call, some (.mem m)⟩]⟩ := by
  generalize hs : t.store.afterPut call m slots tree txn = s'
  have hself : s'.mstable m = { (t.store.mstable m).taking call with slots := slots } :=
    hs ▸ t.store.mstable_afterPut_self call m slots tree txn
  have hother : ∀ m' ≠ m, s'.mstable m' = t.store.mstable m' := fun m' hm' =>
    hs ▸ update_of_ne hm' _ _
  have hslab : ∀ c m', s'.slabOf c = some m' → t.store.slabOf c = some m' := fun _ _ hc' =>
    slabOf_of_afterPut slots tree txn (hs ▸ hc')
  -- In the slab of the put a slot is one from before, or it is of the series of the call.
  have hnew : ∀ {sourceId metricId a}, (s'.mstable m).SlotFor sourceId metricId a →
      (t.store.mstable m).SlotFor sourceId metricId a ∨
      (sourceId = call.sourceId ∧ metricId = call.metricId ∧ ∀ m' b, m' ≠ m →
        (t.store.mstable m').SlotFor sourceId metricId b → b.endTime < a.startTime) := by
    intro sourceId metricId a ha
    generalize hinfo : (t.store.mstable m).taking call = info at hstep
    have hcid : info.cid = call.cid := by rw [← hinfo]
    have hslots : info.slots = (t.store.mstable m).slots := by rw [← hinfo]
    have hcid' : (s'.mstable m).cid = info.cid := by rw [hself, hcid]
    have hstep' : SlotStep call m info t.store.massTree (s'.mstable m).slots tree := by
      rw [hself]
      exact hstep
    have hbefore : ∀ {sourceId metricId b}, info.SlotFor sourceId metricId b →
        (t.store.mstable m).SlotFor sourceId metricId b := by
      intro sourceId metricId b hb
      have hclass := (h.indexed.current _ m hc).resolve_left
        (hslots ▸ ne_nil_of_mem hb.1)
      exact (slotFor_congr (hcid.trans hclass.symm) hslots).1 hb
    rcases slotFor_slotStep hr hcid hcid' hstep' ha with hold | ⟨rfl, rfl, hstart⟩
    · exact Or.inl (hbefore hold)
    · refine Or.inr ⟨rfl, rfl, fun m' b hm' hb => ?_⟩
      rcases hstart with hstart | ⟨old, hold, hstart⟩
      · rw [hstart]
        exact h.indexed.endTime_lt hinc hb
      · rw [← hstart]
        exact hsep.latest hc (hbefore hold) hb hm'
  constructor
  · intro sourceId metricId m₁ m₂ a b ha hb hne
    by_cases h₁ : m₁ = m
    · subst h₁
      rw [hother m₂ hne.symm] at hb
      rcases hnew ha with hold | ⟨-, -, hlast⟩
      · exact hsep.apart hold hb hne
      · exact Or.inr (hlast m₂ b hne.symm hb)
    · rw [hother m₁ h₁] at ha
      by_cases h₂ : m₂ = m
      · subst h₂
        rcases hnew hb with hold | ⟨-, -, hlast⟩
        · exact hsep.apart ha hold hne
        · exact Or.inl (hlast m₁ a hne ha)
      · rw [hother m₂ h₂] at hb
        exact hsep.apart ha hb hne
  · intro c sourceId metricId m₁ m₂ a b hc₁ ha hb hne
    have hc₁' := hslab c m₁ hc₁
    by_cases h₁ : m₁ = m
    · subst h₁
      rw [hother m₂ hne] at hb
      rcases hnew ha with hold | ⟨-, -, hlast⟩
      · exact hsep.latest hc₁' hold hb hne
      · exact hlast m₂ b hne hb
    · rw [hother m₁ h₁] at ha
      by_cases h₂ : m₂ = m
      · subst h₂
        rcases hnew hb with hold | ⟨rfl, rfl, -⟩
        · exact hsep.latest hc₁' ha hold hne
        · -- The class has one current slab, and it is that of the put.
          have hclass := h.indexed.eq_of_slotFor hc₁' ha
          rw [hclass, hc] at hc₁'
          exact absurd (Option.some.inj hc₁').symm h₁
      · rw [hother m₂ h₂] at hb
        exact hsep.latest hc₁' ha hb hne

theorem Separated.conPutKV (hsep : t.Separated) (h : t.PutState cfg) (hinc : t.Increasing call)
    (hr : InRange call) {sid : Option ℕ} {s : TreeSeries}
    (hput : t.store.conPutKV cfg call = .ok (sid, s)) : (t.record call (sid, s)).Separated := by
  rcases conPutKV_cases hput with ⟨rfl, rfl⟩ | ⟨m, s₁, rfl, hcur, hslab⟩
  · exact hsep
  · obtain ⟨-, -, slots, tree, txn, hstep, rfl⟩ := putInSlab_eq_ok hslab
    have hc := slabOf_currentSlab_self hcur
    have hinc₁ : Increasing ⟨s₁, t.ledger⟩ call := hinc
    exact (hsep.currentSlab h hcur).put (h.currentSlab hcur) hinc₁ hr hc hstep

theorem separated_of_reaches {t₀ : Traced} (h : t₀.PutState cfg) (hsep : t₀.Separated)
    (hrun : Run.Reaches PutAllowed (Traced.step cfg) t₀ t) : t.Separated := by
  have hboth : t.PutState cfg ∧ t.Separated := by
    refine hrun.invariant (P := fun t => t.PutState cfg ∧ t.Separated) ⟨h, hsep⟩ ?_
    rintro t op t' ⟨h, hsep⟩ hop hok
    obtain ⟨call, sid, s, rfl, hinc, hr, hput, rfl⟩ := putAllowed_cases hop hok
    exact ⟨(h.conPutKV hinc hr hput).1, hsep.conPutKV h hinc hr hput⟩
  exact hboth.2

/-! ## What a scan finds -/

theorem slotFor_unique (h : t.PutState cfg) {a b : Slot}
    (ha : (t.store.mstable m).SlotFor sourceId metricId a)
    (hb : (t.store.mstable m).SlotFor sourceId metricId b) : a = b := by
  obtain ⟨i, hi⟩ := mem_iff_getElem?.1 ha.1
  obtain ⟨j, hj⟩ := mem_iff_getElem?.1 hb.1
  obtain ⟨hs, hm⟩ := getSinfo_inj (ha.2.1.trans hb.2.1.symm) (ha.2.2.trans hb.2.2.symm)
  obtain rfl := (h.indexed.slotsOk m).distinct hi hj hs hm
  exact Option.some.inj (hi.symm.trans hj)

theorem PutState.getElem?_massTree (h : t.PutState cfg) (k : Key) (p : Place) :
    t.store.massTree[k]? = some p ↔ ∃ m slot, p = .mem m ∧
      (t.store.mstable m).SlotFor k.sourceId k.metricId slot ∧
      (k.time = slot.startTime ∨ k.time = slot.endTime) := by
  constructor
  · intro hk
    obtain ⟨slot, hslot, hsource, hmetric, htime⟩ := h.indexed.exact.sound k p hk
    cases p with
    | mem m => exact ⟨m, slot, rfl, ⟨hslot, hsource, hmetric⟩, htime⟩
    | disk d =>
      change slot ∈ (t.store.dstable d).slots at hslot
      rw [h.disk d] at hslot
      cases hslot
  · rintro ⟨m, slot, rfl, ⟨hslot, hsource, hmetric⟩, htime⟩
    obtain ⟨hstart, hend⟩ := h.invariant.keys m slot hslot
    obtain ⟨source, metric, time⟩ := k
    obtain rfl : _ = source := hsource
    obtain rfl : _ = metric := hmetric
    rcases htime with rfl | rfl
    · exact hstart
    · exact hend

def seriesStart (s : TreeSeries) (sourceId metricId : ℕ) (p : Place) : ℕ :=
  (((s.sinfo p).slots.find? fun slot => (s.sinfo p).getSinfoSourceID slot == sourceId &&
    (s.sinfo p).getSinfoMetricID slot == metricId).map Slot.startTime).getD 0

theorem seriesStart_eq {s : TreeSeries} {p : Place}
    (hslot : (s.sinfo p).SlotFor sourceId metricId slot)
    (hone : ∀ a, (s.sinfo p).SlotFor sourceId metricId a → a = slot) :
    seriesStart s sourceId metricId p = slot.startTime := by
  unfold seriesStart
  cases hfind : List.find? _ _ with
  | none =>
    have hnot := find?_eq_none.1 hfind slot hslot.1
    simp [hslot.2.1, hslot.2.2] at hnot
  | some a =>
    have hmem := mem_of_find?_eq_some hfind
    have hids := find?_some hfind
    rw [Bool.and_eq_true, beq_iff_eq, beq_iff_eq] at hids
    rw [hone a ⟨hmem, hids⟩]
    rfl

theorem PutState.seriesStart_mem (h : t.PutState cfg)
    (hslot : (t.store.mstable m).SlotFor sourceId metricId slot) :
    seriesStart t.store sourceId metricId (.mem m) = slot.startTime :=
  seriesStart_eq hslot fun _ ha => slotFor_unique h ha hslot

section Scan

variable (h : t.PutState cfg) (hsep : t.Separated) (sourceId metricId startTime endTime : ℕ)

include h

theorem mem_scanMT (p : Place) : p ∈ t.store.scanMT sourceId metricId startTime endTime ↔
    ∃ m slot, p = .mem m ∧ (t.store.mstable m).SlotFor sourceId metricId slot ∧
      ((startTime ≤ slot.startTime ∧ slot.startTime < endTime) ∨
        (startTime ≤ slot.endTime ∧ slot.endTime < endTime)) := by
  rw [scanMT, RangeScan.mem_foldl_push]
  simp only [not_mem_nil, false_or, mem_map, Prod.exists, MassTree.mem_scan,
    h.getElem?_massTree, exists_eq_right]
  constructor
  · rintro ⟨k, ⟨m, slot, rfl, hslot, htime⟩, rfl, rfl, hrange⟩
    refine ⟨m, slot, rfl, hslot, ?_⟩
    rcases htime with htime | htime
    · exact Or.inl (htime ▸ hrange)
    · exact Or.inr (htime ▸ hrange)
  · rintro ⟨m, slot, rfl, hslot, hrange | hrange⟩
    · exact ⟨⟨sourceId, metricId, slot.startTime⟩, ⟨m, slot, rfl, hslot, Or.inl rfl⟩, rfl, rfl,
        hrange⟩
    · exact ⟨⟨sourceId, metricId, slot.endTime⟩, ⟨m, slot, rfl, hslot, Or.inr rfl⟩, rfl, rfl,
        hrange⟩

include hsep in
theorem pairwise_scanMT : (t.store.scanMT sourceId metricId startTime endTime).Pairwise
    fun p q => seriesStart t.store sourceId metricId p < seriesStart t.store sourceId metricId q := by
  refine RangeScan.pairwise_foldl_push (pairwise_map.2 ?_)
  refine (MassTree.pairwise_scan _ _ _ _ _).imp_of_mem fun {x y} hx hy hxy => ?_
  obtain ⟨hx, hxs, hxm, -⟩ := (MassTree.mem_scan _ _ _ _ _ x.1 x.2).1 hx
  obtain ⟨hy, hys, hym, -⟩ := (MassTree.mem_scan _ _ _ _ _ y.1 y.2).1 hy
  obtain ⟨m, a, hxp, ha, hta⟩ := (h.getElem?_massTree x.1 x.2).1 hx
  obtain ⟨m', b, hyp, hb, htb⟩ := (h.getElem?_massTree y.1 y.2).1 hy
  rw [hxs, hxm] at ha
  rw [hys, hym] at hb
  rw [hxp, hyp, h.seriesStart_mem ha, h.seriesStart_mem hb]
  by_cases hm : m = m'
  · exact Or.inl (congrArg Place.mem hm)
  · have hap := hsep.apart ha hb hm
    have hia := (h.indexed.slotsOk m).increasing a ha.1
    refine Or.inr ?_
    omega

theorem scan_eq : t.store.scan sourceId metricId startTime endTime =
    (t.store.scanMT sourceId metricId startTime endTime).map fun p => (p, t.store.slabAt p) := by
  have hid : ∀ p ∈ t.store.scanMT sourceId metricId startTime endTime,
      decide (slabId p ≠ 2 ^ 32 - 1) = true := by
    intro p hp
    obtain ⟨m, slot, rfl, hslot, -⟩ := (mem_scanMT h _ _ _ _ p).1 hp
    have hm : m < cfg.nmslab := by
      by_contra hout
      exact ne_nil_of_mem hslot.1 (h.outside m (Nat.not_lt.1 hout))
    have hsize := cfg.nmslab_lt
    have hne : m ≠ 2 ^ 32 - 1 := by omega
    exact decide_eq_true hne
  simp only [scan, filter_eq_self.2 hid]
  exact List.map_prod_left_eq_zip.symm

theorem map_fst_scan : (t.store.scan sourceId metricId startTime endTime).map Prod.fst =
    t.store.scanMT sourceId metricId startTime endTime := by
  rw [scan_eq h, map_map]
  exact map_id _

include hsep in
theorem scanExact_iff (hle : startTime ≤ endTime) :
    t.store.ScanExact sourceId metricId startTime endTime ↔
      ∀ m slot, (t.store.mstable m).SlotFor sourceId metricId slot →
        ¬ (slot.startTime < startTime ∧ endTime ≤ slot.endTime) ∧ slot.startTime ≠ endTime := by
  constructor
  · intro hexact m slot hslot
    have hinc := (h.indexed.slotsOk m).increasing slot hslot.1
    by_contra hbad
    have hmeets : slot.startTime ≤ endTime ∧ startTime ≤ slot.endTime := by omega
    have hfound := (hexact.mem_iff (.mem m)).2 ⟨slot, hslot, hmeets⟩
    rw [map_fst_scan h, mem_scanMT h] at hfound
    obtain ⟨m', slot', hm', hslot', hrange⟩ := hfound
    obtain rfl := Place.mem.inj hm'
    obtain rfl := slotFor_unique h hslot hslot'
    omega
  · intro hgood
    refine ⟨fun p => ?_, ?_, ?_⟩
    · rw [map_fst_scan h, mem_scanMT h]
      constructor
      · rintro ⟨m, slot, rfl, hslot, hrange⟩
        have hinc := (h.indexed.slotsOk m).increasing slot hslot.1
        exact ⟨slot, hslot, by omega⟩
      · rintro ⟨slot, hslot, hmeets⟩
        cases p with
        | disk d =>
          have hin : slot ∈ (t.store.dstable d).slots := hslot.1
          rw [h.disk d] at hin
          cases hin
        | mem m =>
          have hinc := (h.indexed.slotsOk m).increasing slot hslot.1
          have hgood := hgood m slot hslot
          exact ⟨m, slot, rfl, hslot, by omega⟩
    · rw [map_fst_scan h]
      refine (pairwise_scanMT h hsep _ _ _ _).imp_of_mem fun {p q} hp hq hlt => ?_
      obtain ⟨m, a, rfl, ha, -⟩ := (mem_scanMT h _ _ _ _ p).1 hp
      obtain ⟨m', b, rfl, hb, -⟩ := (mem_scanMT h _ _ _ _ q).1 hq
      have hne : m ≠ m' := by
        rintro rfl
        exact lt_irrefl _ hlt
      refine ⟨fun heq => hne (Place.mem.inj heq), fun a' b' ha' hb' => ?_⟩
      obtain rfl := slotFor_unique h ha ha'
      obtain rfl := slotFor_unique h hb hb'
      rw [h.seriesStart_mem ha, h.seriesStart_mem hb] at hlt
      have hib := (h.indexed.slotsOk m').increasing b hb.1
      have hap := hsep.apart ha hb hne
      omega
    · rw [scan_eq h]
      intro e he
      obtain ⟨p, -, rfl⟩ := mem_map.1 he
      rfl

end Scan

/-- In every state of a run of puts a scan is right exactly when no slot of the series starts
before the query and ends with it or after it, and none starts at its end. -/
theorem scan_exact_iff (cfg : Setting) (mslab dslab : ℕ → Slab) (t : Traced)
    (hrun : Run.Reaches PutAllowed (Traced.step cfg) ⟨initStable cfg mslab dslab, []⟩ t)
    (sourceId metricId startTime endTime : ℕ) (hle : startTime ≤ endTime) :
    t.store.ScanExact sourceId metricId startTime endTime ↔
      ∀ m slot, (t.store.mstable m).SlotFor sourceId metricId slot →
        ¬ (slot.startTime < startTime ∧ endTime ≤ slot.endTime) ∧ slot.startTime ≠ endTime := by
  have h := putState_initStable cfg mslab dslab
  exact scanExact_iff (putState_of_reaches h hrun)
    (separated_of_reaches h (separated_initStable cfg mslab dslab) hrun) _ _ _ _ hle

/-- Slab 0 and slab 1 hold the chunks of one series from 0 on, and the query ends after both. -/
theorem scan_exact_twoSlabs :
    ∃ t, Run.Reaches PutAllowed (Traced.step sampleSetting) ⟨sampleStore, []⟩ t ∧
      t.store.scanMT 1 1 0 1000 = [.mem 0, .mem 1] ∧ t.store.ScanExact 1 1 0 1000 := by
  have hrun : (Run.exec PutAllowed (Traced.step sampleSetting) ⟨sampleStore, []⟩
      (samplePuts 1 0 20)).map (fun t => (t.store.scanMT 1 1 0 1000, (List.range 12).all fun m =>
        (t.store.mstable m).slots.all fun slot => slot.startTime != 1000)) =
      some ([.mem 0, .mem 1], true) := by
    decide +kernel
  obtain ⟨t, hreach, hview⟩ := Run.exists_reaches_of_exec hrun
  refine ⟨t, hreach, congrArg Prod.fst hview, (scan_exact_iff sampleSetting _ _ t hreach
    1 1 0 1000 (by decide)).2 fun m slot hslot => ⟨fun hbefore => absurd hbefore.1 (by simp), ?_⟩⟩
  rcases Nat.lt_or_ge m 12 with hm | hm
  · have hstart := all_eq_true.1 (all_eq_true.1 (congrArg Prod.snd hview) m
      (mem_range.2 hm)) slot hslot.1
    exact bne_iff_ne.1 hstart
  · have hnil := (putState_of_reaches (putState_initStable sampleSetting _ _) hreach).outside m hm
    exact absurd hslot.1 (hnil ▸ not_mem_nil)

/-- One slab covers the times 0 to 7; a query for 2 to 4 lies inside and finds nothing. -/
theorem scan_misses_enclosing :
    ∃ t, Run.Reaches PutAllowed (Traced.step sampleSetting) ⟨sampleStore, []⟩ t ∧
      ¬ t.store.ScanExact 1 1 2 4 := by
  have hrun : (Run.exec PutAllowed (Traced.step sampleSetting) ⟨sampleStore, []⟩
      (samplePuts 1 0 4)).map (fun t => (t.store.scan 1 1 2 4 |>.map Prod.fst,
        (t.store.mstable 0).cid, (t.store.mstable 0).slots)) =
      some ([], classOf 1 1, [⟨0, 0, 0, 7⟩]) := by
    decide +kernel
  obtain ⟨t, hreach, hview⟩ := Run.exists_reaches_of_exec hrun
  obtain ⟨hscan, hrest⟩ := Prod.mk.inj hview
  obtain ⟨hcid, hslots⟩ := Prod.mk.inj hrest
  refine ⟨t, hreach, fun hexact => ?_⟩
  have hslot : (t.store.sinfo (.mem 0)).SlotFor 1 1 ⟨0, 0, 0, 7⟩ := by
    change (t.store.mstable 0).SlotFor 1 1 ⟨0, 0, 0, 7⟩
    rw [SlabInfo.SlotFor, SlabInfo.getSinfoSourceID, SlabInfo.getSinfoMetricID, hcid, hslots]
    decide
  have hfound := (hexact.mem_iff (.mem 0)).2 ⟨_, hslot, by decide, by decide⟩
  rw [hscan] at hfound
  cases hfound

end Traced

end PromTCS
