import PromTCS.TreeSeries.Keys

/-!
# The index under lazy flush

The store is run with a ledger of the chunks put so far and the slab each of them is
in: a memory slab, the disk slab that was written to, or none once the disk slab is
emptied for another. In every state every key of the index points at a slab with a
slot for the key, and both keys of the slot of every chunk still in a slab are in the
index.
-/

namespace PromTCS

open List Function SlabInfo

structure Stored where
  call : PutCall
  slab : Option Place

structure Traced where
  store : TreeSeries
  ledger : List Stored

def PutCall.keyAt (call : PutCall) (time : ℕ) : Key :=
  ⟨call.sourceId, call.metricId, time⟩

namespace Traced

open TreeSeries

def relocate (evicted : List ℕ) (written : List (ℕ × ℕ)) : Place → Option Place
  | .mem m =>
    match written.find? fun p => p.1 == m with
    | some p => some (.disk p.2)
    | none => some (.mem m)
  | .disk d => if d ∈ evicted then none else some (.disk d)

def relocateAll (cfg : Setting) (t : Traced) : List Stored :=
  t.ledger.map fun e =>
    { e with
      slab := e.slab.bind
        (relocate (t.store.batchEvicted cfg) (t.store.batchWritten cfg)) }

/-- The ledger after a call of `ConPutKV`. -/
def record (t : Traced) (call : PutCall) : Option ℕ × TreeSeries → Traced
  | (some m, s) => { store := s, ledger := t.ledger ++ [⟨call, some (.mem m)⟩] }
  | (none, s) => { t with store := s }

def step (cfg : Setting) (t : Traced) : Op → Except Fault Traced
  | .conPutKV call => (t.store.conPutKV cfg call).map (t.record call)
  | .optBatchWriteLazyFlush =>
    (t.store.optBatchWriteLazyFlush cfg).map fun p =>
      { store := p.2, ledger := if p.1 then t.relocateAll cfg else t.ledger }
  | .migrateReadLazyFlush =>
    (t.store.migrateReadLazyFlush cfg).map fun p => { t with store := p.2 }
  | .forceFlush => .ok { t with store := t.store.forceFlush cfg }

def Increasing (t : Traced) (call : PutCall) : Prop :=
  call.startTime < call.endTime ∧ ∀ e ∈ t.ledger, e.call.sourceId = call.sourceId →
    e.call.metricId = call.metricId → e.call.endTime < call.startTime

def InRange (call : PutCall) : Prop :=
  call.sourceId < 256 * cyNum ∧ call.metricId < 256 * cxNum

def Allowed (t : Traced) : Op → Prop
  | .conPutKV call => t.Increasing call
  | .forceFlush => False
  | _ => True

def AllowedInRange (t : Traced) : Op → Prop
  | .conPutKV call => t.Increasing call ∧ InRange call
  | .forceFlush => False
  | _ => True

instance (t : Traced) (call : PutCall) : Decidable (t.Increasing call) :=
  inferInstanceAs (Decidable (_ ∧ ∀ e ∈ t.ledger, _))

instance (call : PutCall) : Decidable (InRange call) :=
  inferInstanceAs (Decidable (_ ∧ _))

instance (t : Traced) : (op : Op) → Decidable (t.Allowed op)
  | .conPutKV call => inferInstanceAs (Decidable (t.Increasing call))
  | .optBatchWriteLazyFlush => inferInstanceAs (Decidable True)
  | .migrateReadLazyFlush => inferInstanceAs (Decidable True)
  | .forceFlush => inferInstanceAs (Decidable False)

instance (t : Traced) : (op : Op) → Decidable (t.AllowedInRange op)
  | .conPutKV call => inferInstanceAs (Decidable (t.Increasing call ∧ InRange call))
  | .optBatchWriteLazyFlush => inferInstanceAs (Decidable True)
  | .migrateReadLazyFlush => inferInstanceAs (Decidable True)
  | .forceFlush => inferInstanceAs (Decidable False)

def SlotOf (info : SlabInfo) (call : PutCall) (slot : Slot) : Prop :=
  slot ∈ info.slots ∧ info.getSinfoSourceID slot = call.sourceId ∧
    info.getSinfoMetricID slot = call.metricId ∧ slot.startTime ≤ call.startTime.toNat ∧
    call.endTime.toNat ≤ slot.endTime

structure IndexExact (t : Traced) : Prop where
  sound : ∀ (k : Key) (p : Place), t.store.massTree[k]? = some p → ∃ slot ∈ (t.store.sinfo p).slots,
    (t.store.sinfo p).getSinfoSourceID slot = k.sourceId ∧
    (t.store.sinfo p).getSinfoMetricID slot = k.metricId ∧
    (k.time = slot.startTime ∨ k.time = slot.endTime)
  complete : ∀ e ∈ t.ledger, ∀ p : Place, e.slab = some p →
    ∃ slot, SlotOf (t.store.sinfo p) e.call slot ∧
      (t.store.massTree[(t.store.sinfo p).startKey slot]?).isSome = true ∧
      (t.store.massTree[(t.store.sinfo p).endKey slot]?).isSome = true

structure Indexed (cfg : Setting) (t : Traced) : Prop where
  owned : t.store.Owned cfg
  valid : t.store.tiered.Valid
  slotsOk : ∀ m, SlotsOk (t.store.mstable m).slots
  bounded : ∀ (p : Place) (k : Key), (t.store.sinfo p).HasKey k →
    ∃ e ∈ t.ledger, e.call.sourceId = k.sourceId ∧ e.call.metricId = k.metricId ∧
      k.time ≤ e.call.endTime.toNat
  current : ∀ c m, t.store.slabOf c = some m →
    (t.store.mstable m).slots = [] ∨ (t.store.mstable m).cid = c
  free : ∀ m ∈ t.store.freeMsinfoq, (t.store.mstable m).slots = []
  placed : ∀ e ∈ t.ledger, ∀ p, e.slab = some p →
    t.store.tiered.Answers p.toSum ∧ ∃ slot, SlotOf (t.store.sinfo p) e.call slot

variable {cfg : Setting} {t : Traced} {info info' : SlabInfo} {call : PutCall} {s : TreeSeries}

theorem Indexed.exact (h : t.Indexed cfg) : t.IndexExact where
  sound k p hk := by
    obtain ⟨slot, hslot, hkey⟩ := (mem_keys_tiered _ _ _).1
      (h.valid.sound ((index_tiered_eq_some _ _ _).2 hk))
    refine ⟨slot, hslot, ?_⟩
    rcases hkey with rfl | rfl
    · exact ⟨rfl, rfl, Or.inl rfl⟩
    · exact ⟨rfl, rfl, Or.inr rfl⟩
  complete e he p hp := by
    obtain ⟨hans, slot, hslot⟩ := h.placed e he p hp
    have hin : ∀ k, (t.store.sinfo p).HasKey k → (t.store.massTree[k]?).isSome = true := by
      intro k hk
      obtain ⟨q, hq⟩ := h.valid.complete hans ((mem_keys_tiered _ _ _).2 hk)
      rw [Option.isSome_iff_ne_none]
      intro hnone
      rw [(index_tiered_eq_none _ _).2 hnone] at hq
      cases hq
    exact ⟨slot, hslot, hin _ ⟨slot, hslot.1, Or.inl rfl⟩, hin _ ⟨slot, hslot.1, Or.inr rfl⟩⟩

theorem slotOf_congr (hcid : info'.cid = info.cid) (hslots : info'.slots = info.slots) {slot : Slot}
    (h : SlotOf info call slot) : SlotOf info' call slot := by
  simpa only [SlotOf, getSinfoSourceID, getSinfoMetricID, hcid, hslots] using h

/-! ## Where the chunks are -/

/-- `P`, of a slab and a chunk in it, depends on the class and the slots of the slab only, and
an empty slab does not have it. -/
structure OfSlots (P : SlabInfo → PutCall → Prop) : Prop where
  congr : ∀ {info info' : SlabInfo} {call : PutCall}, info'.cid = info.cid →
    info'.slots = info.slots → P info call → P info' call
  ne_nil : ∀ {info : SlabInfo} {call : PutCall}, P info call → info.slots ≠ []

/-- Every chunk of the ledger is in a slab that answers for it and has `P`. -/
structure Placed (P : SlabInfo → PutCall → Prop) (cfg : Setting) (t : Traced) : Prop where
  owned : t.store.Owned cfg
  current : ∀ c m, t.store.slabOf c = some m →
    (t.store.mstable m).slots = [] ∨ (t.store.mstable m).cid = c
  free : ∀ m ∈ t.store.freeMsinfoq, (t.store.mstable m).slots = []
  placed : ∀ e ∈ t.ledger, ∀ p, e.slab = some p →
    t.store.tiered.Answers p.toSum ∧ P (t.store.sinfo p) e.call

theorem placed_initStable (P : SlabInfo → PutCall → Prop) (cfg : Setting)
    (mslab dslab : ℕ → Slab) : Placed P cfg ⟨initStable cfg mslab dslab, []⟩ where
  owned := (lifecycle_initStable cfg mslab dslab).owned
  current c m hm := by simp [slabOf, initStable] at hm
  free m _ := rfl
  placed e he := by cases he

variable {P : SlabInfo → PutCall → Prop} {m : ℕ}

theorem Placed.congr (h : t.Placed P cfg) (howned : s.Owned cfg)
    (htiered : s.tiered = t.store.tiered) (hsinfo : ∀ p, s.sinfo p = t.store.sinfo p)
    (hslab : s.slabOf = t.store.slabOf) (hfree : s.freeMsinfoq = t.store.freeMsinfoq) :
    Placed P cfg ⟨s, t.ledger⟩ := by
  have hmem : ∀ m, s.mstable m = t.store.mstable m := fun m => hsinfo (.mem m)
  refine ⟨howned, fun c m hc => ?_, fun m hm => ?_, fun e he p hp => ?_⟩
  · simpa only [hmem] using h.current c m (hslab ▸ hc)
  · simpa only [hmem] using h.free m (hfree ▸ hm)
  · simpa only [htiered, hsinfo] using h.placed e he p hp

/-! ## The choice of a slab -/

section CurrentSlab

variable {c : ClassId} {s₁ : TreeSeries} (hcur : s.currentSlab c = some (m, s₁))

include hcur

theorem sinfo_currentSlab (p : Place) :
    ((s₁.sinfo p).cid = (s.sinfo p).cid ∧ (s₁.sinfo p).slots = (s.sinfo p).slots) ∨
      (s₁.sinfo p).slots = [] ∧ ∃ d, p = .mem m ∧ (m, d) ∈ s.memEvictSinfoq := by
  obtain ⟨hframe, hself⟩ := currentSlab_frame hcur
  cases p with
  | disk d => exact Or.inl (by simp only [sinfo, hframe.dstable, and_self])
  | mem m' =>
    by_cases hm' : m' = m
    · subst hm'
      rcases hself with ⟨hcid, hslots, -⟩ | ⟨hnil, d, hev⟩
      · exact Or.inl ⟨hcid, hslots⟩
      · exact Or.inr ⟨hnil, d, rfl, hev ▸ mem_cons_self⟩
    · exact Or.inl (by simp only [sinfo, hframe.other m' hm', and_self])

theorem answers_currentSlab {p : Place} (hans : s.tiered.Answers p.toSum) :
    s₁.tiered.Answers p.toSum := by
  obtain ⟨hframe, hself⟩ := currentSlab_frame hcur
  cases p with
  | disk d =>
    have hlive : s₁.tiered.live = s.tiered.live := by
      simp only [tiered, hframe.used, hframe.evict]
    exact (Set.ext_iff.1 hlive d).2 hans
  | mem m' =>
    intro d hd
    refine hans d ?_
    rcases hself with ⟨-, -, -, hev⟩ | ⟨-, d', hev⟩
    · exact (hev ▸ hd : (m', d) ∈ s.memEvictSinfoq)
    · exact (hev ▸ mem_cons_of_mem _ hd : (m', d) ∈ s.memEvictSinfoq)

theorem current_currentSlab : (∀ m' ∈ s₁.freeMsinfoq, m' ∈ s.freeMsinfoq) ∧
    ∀ c' m', s₁.slabOf c' = some m' →
      s.slabOf c' = some m' ∨ m' ∈ s.freeMsinfoq ∨ (s₁.mstable m').slots = [] := by
  have hslab : ∀ {c' m'}, s₁.slabOf c' = some m' → s.slabOf c' = some m' ∨ m' = m := by
    intro c' m' hc'
    rw [slabOf_currentSlab hcur] at hc'
    by_cases hcc : c' = c
    · subst hcc
      rw [update_self, Option.some.injEq] at hc'
      exact Or.inr hc'.symm
    · rw [update_of_ne hcc] at hc'
      exact Or.inl hc'
  rcases currentSlab_cases hcur with ⟨-, rfl⟩ | ⟨-, rest, hfree, rfl⟩ | ⟨-, -, d, rest, -, rfl⟩
  · exact ⟨fun _ hm => hm, fun _ _ hc => Or.inl hc⟩
  · refine ⟨fun m' hm' => hfree ▸ mem_cons_of_mem _ hm', fun c' m' hc' => ?_⟩
    refine (hslab hc').imp_right fun hm' => Or.inl ?_
    exact hm' ▸ hfree ▸ mem_cons_self
  · refine ⟨fun _ hm => hm, fun c' m' hc' => (hslab hc').imp_right fun hm' => Or.inr ?_⟩
    subst hm'
    simp [freeSlab]

theorem tiered_currentSlab (howned : s.Owned cfg) : s₁.tiered = s.tiered ∨
    ∃ d, s.tiered.pending m d ∧ s₁.tiered = s.tiered.reuse m d := by
  obtain ⟨hframe, -⟩ := currentSlab_frame hcur
  rcases currentSlab_cases hcur with ⟨-, rfl⟩ | ⟨-, rest, -, hs₁⟩ | ⟨-, -, d, rest, hev, hs₁⟩
  · exact Or.inl rfl
  · left
    ext1
    · funext m'
      refine Set.ext fun k => hasKey_congr ?_ ?_ k <;>
        · rw [hs₁]
          by_cases hm' : m' = m <;> simp [hm']
    all_goals
      rw [hs₁]
      rfl
  · have honce : m ∉ rest.map Prod.fst := by
      intro hm
      have hone := howned.memCount_le_one m
      have hpos := count_pos_iff.2 hm
      simp only [memCount, hev, map_cons, count_cons_self] at hone
      omega
    have hself : (s₁.mstable m).slots = [] := by
      rw [hs₁]
      simp [freeSlab]
    exact Or.inr ⟨d, (hev ▸ mem_cons_self : (m, d) ∈ s.memEvictSinfoq),
      tiered_reuse hev honce (by rw [hs₁]) (by rw [hs₁]) hself hframe.other hframe.dstable
        hframe.used hframe.evict⟩

end CurrentSlab

theorem Placed.currentSlab (hP : OfSlots P) (h : t.Placed P cfg) {c : ClassId} {s₁ : TreeSeries}
    (hcur : t.store.currentSlab c = some (m, s₁)) : Placed P cfg ⟨s₁, t.ledger⟩ := by
  obtain ⟨hfree, hcurrent⟩ := current_currentSlab hcur
  have hkeep : ∀ {c' m'}, (t.store.mstable m').slots = [] ∨ (t.store.mstable m').cid = c' →
      (s₁.mstable m').slots = [] ∨ (s₁.mstable m').cid = c' := by
    intro c' m' hold
    rcases sinfo_currentSlab hcur (.mem m') with ⟨hcid, hslots⟩ | ⟨hnil, -⟩
    · exact hold.imp hslots.trans hcid.trans
    · exact Or.inl hnil
  refine ⟨h.owned.of_counts (memCount_currentSlab hcur) fun d =>
    congrFun (diskCount_currentSlab hcur) d, fun c' m' hc' => ?_, fun m' hm' => ?_,
    fun e he p hp => ?_⟩
  · rcases hcurrent c' m' hc' with hold | hold | hnil
    · exact hkeep (h.current c' m' hold)
    · exact hkeep (Or.inl (h.free m' hold))
    · exact Or.inl hnil
  · rcases sinfo_currentSlab hcur (.mem m') with ⟨-, hslots⟩ | ⟨hnil, -⟩
    · exact hslots.trans (h.free m' (hfree m' hm'))
    · exact hnil
  · obtain ⟨hans, hin⟩ := h.placed e he p hp
    refine ⟨answers_currentSlab hcur hans, ?_⟩
    rcases sinfo_currentSlab hcur p with ⟨hcid, hslots⟩ | ⟨-, d, rfl, hev⟩
    · exact hP.congr hcid hslots hin
    · exact absurd hev (hans d)

theorem Placed.afterPut (hP : OfSlots P) (h : t.Placed P cfg) {slots : List Slot}
    {tree : MassTree} {txn : ℕ → ℤ}
    (hc : t.store.slabOf call.cid = some m)
    (hcall : P ((t.store.afterPut call m slots tree txn).mstable m) call)
    (hkept : ∀ {call'}, (t.store.mstable m).cid = call.cid →
      P (t.store.mstable m) call' → P ((t.store.afterPut call m slots tree txn).mstable m) call') :
    Placed P cfg ⟨t.store.afterPut call m slots tree txn,
      t.ledger ++ [⟨call, some (.mem m)⟩]⟩ := by
  have hself := t.store.mstable_afterPut_self call m slots tree txn
  have hother : ∀ m' ≠ m, (t.store.afterPut call m slots tree txn).mstable m' =
      t.store.mstable m' := fun m' hm' => update_of_ne hm' _ _
  have hone := h.owned.memCount_le_one m
  have hocc := Places.occupants_pos hc
  unfold memCount at hone
  refine ⟨h.owned.of_counts (memCount_afterPut slots tree txn hc) fun _ => rfl,
    fun c m' hc' => ?_, fun m' hm' => ?_, fun e he p hp => ?_⟩
  · have hold := slabOf_of_afterPut slots tree txn hc'
    by_cases hm : m' = m
    · subst hm
      refine Or.inr ((congrArg cid hself).trans ?_)
      exact (Places.eq_of_occupants_le_one (by omega) hold hc).symm
    · simpa only [hother m' hm] using h.current c m' hold
  · have hm : m' ≠ m := by
      rintro rfl
      have hpos : 0 < t.store.freeMsinfoq.count m' := count_pos_iff.2 hm'
      omega
    simpa only [hother m' hm] using h.free m' hm'
  · rcases mem_append.1 he with he | he
    · obtain ⟨hans, hin⟩ := h.placed e he p hp
      refine ⟨hans, ?_⟩
      by_cases hpm : p = .mem m
      · subst hpm
        exact hkept ((h.current _ m hc).resolve_left (hP.ne_nil hin)) hin
      · have hsame : (t.store.afterPut call m slots tree txn).sinfo p = t.store.sinfo p := by
          cases p with
          | mem m' => exact hother m' fun heq => hpm (congrArg Place.mem heq)
          | disk d => rfl
        exact hsame.symm ▸ hin
    · obtain rfl := mem_singleton.1 he
      obtain rfl : Place.mem m = p := Option.some.inj hp
      refine ⟨fun d hd => ?_, hcall⟩
      have hpos := count_pos_iff.2 (mem_map.2 ⟨_, hd, rfl⟩ :
        m ∈ t.store.memEvictSinfoq.map Prod.fst)
      omega

/-! ## The slots of the chunks -/

def InSlot (info : SlabInfo) (call : PutCall) : Prop :=
  ∃ slot, SlotOf info call slot

theorem ofSlots_inSlot : OfSlots InSlot where
  congr hcid hslots := fun ⟨slot, h⟩ => ⟨slot, slotOf_congr hcid hslots h⟩
  ne_nil := fun ⟨_, h⟩ => ne_nil_of_mem h.1

theorem Indexed.toPlaced (h : t.Indexed cfg) : t.Placed InSlot cfg :=
  ⟨h.owned, h.current, h.free, h.placed⟩

theorem Placed.indexed (h : t.Placed InSlot cfg) (hvalid : t.store.tiered.Valid)
    (hok : ∀ m, SlotsOk (t.store.mstable m).slots)
    (hbounded : ∀ (p : Place) (k : Key), (t.store.sinfo p).HasKey k →
      ∃ e ∈ t.ledger, e.call.sourceId = k.sourceId ∧ e.call.metricId = k.metricId ∧
        k.time ≤ e.call.endTime.toNat) : t.Indexed cfg :=
  ⟨h.owned, hvalid, hok, hbounded, h.current, h.free, h.placed⟩

theorem indexed_initStable (cfg : Setting) (mslab dslab : ℕ → Slab) :
    Indexed cfg ⟨initStable cfg mslab dslab, []⟩ := by
  have hnone : ∀ p k, ¬ ((initStable cfg mslab dslab).sinfo p).HasKey k := by
    rintro (m | d) k <;> exact not_hasKey rfl k
  refine (placed_initStable InSlot cfg mslab dslab).indexed ?_ (fun _ => slotsOk_nil)
    fun p k hk => absurd hk (hnone p k)
  exact
    { sound := fun {k p} hk => by simp [tiered, initStable] at hk
      complete := fun {p k} _ hk => by
        cases p with
        | inl m => exact absurd hk (hnone (.mem m) k)
        | inr d => exact absurd hk (hnone (.disk d) k)
      distinct := fun {p q k} _ _ hk _ => by
        cases p with
        | inl m => exact absurd hk (hnone (.mem m) k)
        | inr d => exact absurd hk (hnone (.disk d) k)
      pending := fun {m d} hp => by simp [tiered, initStable] at hp
      idle := fun {d} _ => Set.eq_empty_iff_forall_notMem.2 fun k => hnone (.disk d) k }

theorem Indexed.congr (h : t.Indexed cfg) (hplaced : Placed InSlot cfg ⟨s, t.ledger⟩)
    (htiered : s.tiered = t.store.tiered) (hsinfo : ∀ p, s.sinfo p = t.store.sinfo p) :
    Indexed cfg ⟨s, t.ledger⟩ := by
  refine hplaced.indexed (htiered ▸ h.valid) (fun m => ?_) fun p k hk => ?_
  · rw [show s.mstable m = t.store.mstable m from hsinfo (.mem m)]
    exact h.slotsOk m
  · exact h.bounded p k (hsinfo p ▸ hk)

theorem Indexed.currentSlab (h : t.Indexed cfg) {c : ClassId} {s₁ : TreeSeries}
    (hcur : t.store.currentSlab c = some (m, s₁)) : Indexed cfg ⟨s₁, t.ledger⟩ := by
  refine (h.toPlaced.currentSlab ofSlots_inSlot hcur).indexed ?_ (fun m' => ?_) fun p k hk => ?_
  · rcases tiered_currentSlab hcur h.owned with heq | ⟨d, hpending, heq⟩
    · exact heq ▸ h.valid
    · exact heq ▸ h.valid.reuse hpending
  · rcases sinfo_currentSlab hcur (.mem m') with ⟨-, hslots⟩ | ⟨hnil, -⟩
    · exact (hslots ▸ h.slotsOk m' : SlotsOk (s₁.sinfo (.mem m')).slots)
    · exact (hnil ▸ slotsOk_nil : SlotsOk (s₁.sinfo (.mem m')).slots)
  · rcases sinfo_currentSlab hcur p with ⟨hcid, hslots⟩ | ⟨hnil, -⟩
    · exact h.bounded p k ((hasKey_congr hcid hslots k).1 hk)
    · exact absurd hk (not_hasKey hnil k)

/-! ## Put -/

theorem getSinfo_of_fold (hr : InRange call) (hcid : info.cid = call.cid)
    {slot : Slot} (hsource : slot.sourceId = foldSource call.sourceId)
    (hmetric : slot.metricId = foldMetric call.metricId) :
    info.getSinfoSourceID slot = call.sourceId ∧ info.getSinfoMetricID slot = call.metricId := by
  obtain ⟨hs, hm⟩ := hr
  simp only [getSinfoSourceID, getSinfoMetricID, hcid, hsource, hmetric,
    classOf, foldSource, foldMetric, cyNum, cxNum] at *
  omega

theorem getSinfo_congr (hcid : info'.cid = info.cid) (slot : Slot) :
    info'.getSinfoSourceID slot = info.getSinfoSourceID slot ∧
      info'.getSinfoMetricID slot = info.getSinfoMetricID slot := by
  simp only [getSinfoSourceID, getSinfoMetricID, hcid, and_self]

structure PutView (call : PutCall) (m : ℕ) (info info' : SlabInfo) (tree tree' : MassTree)
    (removed new : Set Key) : Prop where
  keys : ∀ k, info'.HasKey k ↔ (info.HasKey k ∧ k ∉ removed) ∨ k ∈ new
  inserted : ∀ k ∈ new, tree'[k]? = some (.mem m)
  erased : ∀ k ∈ removed, k ∉ new → tree'[k]? = none
  untouched : ∀ k ∉ removed, k ∉ new → tree'[k]? = tree[k]?
  removed_sub : ∀ k ∈ removed, info.HasKey k
  fresh : ∀ k ∈ new, k.sourceId = call.sourceId ∧ k.metricId = call.metricId ∧
    call.startTime.toNat ≤ k.time ∧ k.time ≤ call.endTime.toNat
  slotsOk : SlotsOk info'.slots
  stored : ∃ slot, SlotOf info' call slot
  kept : ∀ {call' slot}, SlotOf info call' slot → ∃ slot', SlotOf info' call' slot'

section PutView

variable {call : PutCall} {m : ℕ} {info info' : SlabInfo} {tree : MassTree}
  (hr : InRange call) (hcid : info.cid = call.cid)
  (hcid' : info'.cid = info.cid) (hok : SlotsOk info.slots)
  (htime : call.startTime.toNat < call.endTime.toNat)
  (habsent : ∀ time, call.startTime.toNat ≤ time →
    tree[call.keyAt time]? = none)

include hcid' hok htime habsent

include hr hcid in
theorem putView_extend {j : ℕ} {slot : Slot} (hfind : findSlot info call = some j)
    (hslot : info.slots[j]? = some slot) (hbefore : slot.endTime < call.startTime.toNat)
    (hslots : info'.slots = info.slots.set j { slot with endTime := call.endTime.toNat }) :
    PutView call m info info' tree
      ((tree.removeMT (call.keyAt slot.endTime)).insertMT
        (info.endKey { slot with endTime := call.endTime.toNat }) (.mem m))
      {call.keyAt slot.endTime}
      {call.keyAt call.endTime.toNat} := by
  have hlt : j < info.slots.length := (List.getElem?_eq_some_iff.1 hslot).1
  have hmem : slot ∈ info.slots := mem_of_getElem? hslot
  have hids : slot.sourceId = foldSource call.sourceId ∧
      slot.metricId = foldMetric call.metricId := by
    have hfound := of_findIdx?_eq_some hfind
    simpa [hslot] using hfound
  obtain ⟨hsource, hmetric⟩ := getSinfo_of_fold hr hcid hids.1 hids.2
  have hold : info.endKey slot = call.keyAt slot.endTime := by
    simp only [endKey, PutCall.keyAt, hsource, hmetric]
  have hnew : info.endKey { slot with endTime := call.endTime.toNat } =
      call.keyAt call.endTime.toNat := by
    rw [PutCall.keyAt, ← hsource, ← hmetric]
    rfl
  have hins : (tree.removeMT (call.keyAt slot.endTime))[call.keyAt call.endTime.toNat]? = none := by
    rw [MassTree.getElem?_removeMT, habsent _ htime.le, ite_self]
  have hindex : ∀ k, ((tree.removeMT (call.keyAt slot.endTime)).insertMT
      (info.endKey { slot with endTime := call.endTime.toNat }) (.mem m))[k]? =
      if call.keyAt call.endTime.toNat = k then some (.mem m)
      else if call.keyAt slot.endTime = k then none else tree[k]? := by
    intro k
    rw [hnew, MassTree.getElem?_insertMT, hins, MassTree.getElem?_removeMT]
    simp only [and_true]
  refine ⟨fun k => ?_, ?_, ?_, fun k hk hk' => ?_, ?_, ?_, ?_, ?_, ?_⟩
  · rw [hasKey_extend hok hslot hcid' hslots k, hold, hnew]
    rfl
  · rintro k rfl
    rw [hindex, if_pos rfl]
  · rintro k rfl hk
    rw [hindex, if_neg fun h => hk h.symm, if_pos rfl]
  · rw [hindex, if_neg fun h => hk' h.symm, if_neg fun h => hk h.symm]
  · rintro k rfl
    exact ⟨slot, hmem, Or.inr hold⟩
  · rintro k rfl
    exact ⟨rfl, rfl, htime.le, Nat.le_refl _⟩
  · rw [hslots]
    exact hok.set hslot (hbefore.trans htime)
  · have hslot' : info'.slots[j]? = some { slot with endTime := call.endTime.toNat } := by
      rw [hslots, getElem?_set_self hlt]
    obtain ⟨hsource', hmetric'⟩ := getSinfo_of_fold hr (hcid'.trans hcid) hids.1 hids.2
    exact ⟨_, mem_of_getElem? hslot', hsource', hmetric',
      ((hok.increasing slot hmem).trans hbefore).le, Nat.le_refl _⟩
  · rintro call' a ⟨ha, hsa, hma, hstart, hend⟩
    obtain ⟨i, hi⟩ := mem_iff_getElem?.1 ha
    by_cases hij : i = j
    · subst hij
      obtain rfl : slot = a := Option.some.inj (hslot.symm.trans hi)
      have hslot' : info'.slots[i]? = some { slot with endTime := call.endTime.toNat } := by
        rw [hslots, getElem?_set_self hlt]
      exact ⟨_, mem_of_getElem? hslot', (getSinfo_congr hcid' _).1.trans hsa,
        (getSinfo_congr hcid' _).2.trans hma, hstart, hend.trans (hbefore.trans htime).le⟩
    · have hi' : info'.slots[i]? = some a := by
        rw [hslots, getElem?_set_ne (Ne.symm hij), hi]
      exact ⟨a, mem_of_getElem? hi', (getSinfo_congr hcid' _).1.trans hsa,
        (getSinfo_congr hcid' _).2.trans hma, hstart, hend⟩

theorem putView_add (hfind : findSlot info call = none) (hunfold : unfolds info call = true)
    (hslots : info'.slots = info.slots ++ [newSlot call]) :
    PutView call m info info' tree
      ((tree.insertMT (info.startKey (newSlot call)) (.mem m)).insertMT
        (info.endKey (newSlot call)) (.mem m))
      ∅ {call.keyAt call.startTime.toNat, call.keyAt call.endTime.toNat} := by
  obtain ⟨hsource, hmetric⟩ := of_decide_eq_true hunfold
  have hstart : info.startKey (newSlot call) = call.keyAt call.startTime.toNat := by
    simp only [startKey, PutCall.keyAt, hsource, hmetric]
    rfl
  have hend : info.endKey (newSlot call) = call.keyAt call.endTime.toNat := by
    simp only [endKey, PutCall.keyAt, hsource, hmetric]
    rfl
  have hne : call.keyAt call.startTime.toNat ≠ call.keyAt call.endTime.toNat := fun h =>
    htime.ne (congrArg Key.time h)
  have hindex : ∀ k, ((tree.insertMT (info.startKey (newSlot call)) (.mem m)).insertMT
      (info.endKey (newSlot call)) (.mem m))[k]? =
      if call.keyAt call.endTime.toNat = k then some (.mem m)
      else if call.keyAt call.startTime.toNat = k then some (.mem m) else tree[k]? := by
    intro k
    simp only [hstart, hend, MassTree.getElem?_insertMT, habsent _ (Nat.le_refl _),
      habsent _ htime.le, hne, if_false, and_true]
  have hmem : ∀ a, a ∈ info'.slots ↔ a ∈ info.slots ∨ a = newSlot call := by
    intro a
    rw [hslots, mem_append, mem_singleton]
  refine ⟨fun k => ?_, ?_, ?_, fun k _ hk => ?_, ?_, ?_, ?_, ?_, ?_⟩
  · rw [hasKey_add hcid' hslots k, hstart, hend]
    simp
  · rintro k (rfl | rfl)
    · rw [hindex, if_neg hne.symm, if_pos rfl]
    · rw [hindex, if_pos rfl]
  · rintro k ⟨⟩
  · rw [hindex, if_neg fun h => hk (Or.inr h.symm), if_neg fun h => hk (Or.inl h.symm)]
  · rintro k ⟨⟩
  · rintro k (rfl | rfl)
    · exact ⟨rfl, rfl, Nat.le_refl _, htime.le⟩
    · exact ⟨rfl, rfl, htime.le, Nat.le_refl _⟩
  · rw [hslots]
    refine hok.append (fun a ha hids => ?_) htime
    have hnot := findIdx?_eq_none_iff.1 hfind a ha
    simp [hids.1, hids.2, newSlot] at hnot
  · exact ⟨newSlot call, (hmem _).2 (Or.inr rfl), (getSinfo_congr hcid' _).1.trans hsource,
      (getSinfo_congr hcid' _).2.trans hmetric, Nat.le_refl _, Nat.le_refl _⟩
  · rintro call' a ⟨ha, hsa, hma, htimes⟩
    exact ⟨a, (hmem a).2 (Or.inl ha), (getSinfo_congr hcid' _).1.trans hsa,
      (getSinfo_congr hcid' _).2.trans hma, htimes⟩

end PutView

theorem hasKey_setClass {c : ClassId} (h : info.slots = [] ∨ info.cid = c) (hcid : info'.cid = c)
    (hslots : info'.slots = info.slots) (k : Key) : info'.HasKey k ↔ info.HasKey k := by
  rcases h with hnil | rfl
  · exact iff_of_false (not_hasKey (hslots.trans hnil) k) (not_hasKey hnil k)
  · exact hasKey_congr hcid hslots k

section AfterPut

variable {cfg : Setting} {t : Traced} (h : t.Indexed cfg) {call : PutCall}
  (hinc : t.Increasing call)

include h hinc

theorem Indexed.not_hasKey_of_increasing {time : ℕ} (htime : call.startTime.toNat ≤ time)
    (p : Place) : ¬ (t.store.sinfo p).HasKey (call.keyAt time) := by
  intro hk
  obtain ⟨e, he, hsource, hmetric, hend⟩ := h.bounded p _ hk
  have hlt : e.call.endTime.toNat < call.startTime.toNat := hinc.2 e he hsource hmetric
  exact absurd (Nat.lt_of_le_of_lt hend hlt) (Nat.not_lt.2 htime)

theorem Indexed.absent_of_increasing {time : ℕ} (htime : call.startTime.toNat ≤ time) :
    t.store.massTree[call.keyAt time]? = none := by
  cases hp : t.store.massTree[call.keyAt time]? with
  | none => rfl
  | some p =>
    have hkey := h.valid.sound ((index_tiered_eq_some _ _ _).2 hp)
    exact absurd ((mem_keys_tiered _ _ _).1 hkey) (h.not_hasKey_of_increasing hinc htime p)

variable {m : ℕ} {info : SlabInfo}

theorem Indexed.putView (hr : InRange call)
    (hc : t.store.slabOf call.cid = some m) {info' : SlabInfo}
    (hcid : info.cid = call.cid)
    (hslots : info.slots = (t.store.mstable m).slots) (hcid' : info'.cid = info.cid)
    {tree : MassTree} (hstep : SlotStep call m info t.store.massTree info'.slots tree) :
    ∃ removed new, PutView call m info info' t.store.massTree tree removed new := by
  have htime : call.startTime.toNat < call.endTime.toNat := hinc.1
  have habsent : ∀ time, call.startTime.toNat ≤ time →
      t.store.massTree[call.keyAt time]? = none := fun _ => h.absent_of_increasing hinc
  have hok : SlotsOk info.slots := hslots ▸ h.slotsOk m
  generalize hslots' : info'.slots = slots' at hstep
  cases hstep with
  | extend j slot hfind hslot =>
    refine ⟨_, _, putView_extend hr hcid hcid' hok htime habsent hfind hslot ?_ hslots'⟩
    -- The end of the slot is a key of the slab, so it comes before the new chunk.
    by_contra hlate
    have hfound := of_findIdx?_eq_some hfind
    simp only [hslot, Bool.and_eq_true, beq_iff_eq] at hfound
    obtain ⟨hsource, hmetric⟩ := getSinfo_of_fold hr hcid hfound.1 hfound.2
    have hkey : info.HasKey (call.keyAt slot.endTime) := by
      refine ⟨slot, mem_of_getElem? hslot, Or.inr ?_⟩
      rw [PutCall.keyAt, ← hsource, ← hmetric]
      rfl
    exact h.not_hasKey_of_increasing hinc (Nat.not_lt.1 hlate) (.mem m)
      ((hasKey_setClass (h.current _ m hc) hcid hslots _).1 hkey)
  | add hfind hlen hunfold =>
    exact ⟨_, _, putView_add hcid' hok htime habsent hfind hunfold hslots'⟩

theorem Indexed.put (hc : t.store.slabOf call.cid = some m)
    (hcid : info.cid = call.cid)
    (hslots : info.slots = (t.store.mstable m).slots) {removed new : Set Key} {slots : List Slot}
    {tree : MassTree} {txn : ℕ → ℤ}
    (hview : PutView call m info ((t.store.afterPut call m slots tree txn).mstable m)
      t.store.massTree tree removed new) :
    Indexed cfg ⟨t.store.afterPut call m slots tree txn,
      t.ledger ++ [⟨call, some (.mem m)⟩]⟩ := by
  classical
  have hkeys := hasKey_setClass (h.current _ m hc) hcid hslots
  have hother : ∀ m' ≠ m, (t.store.afterPut call m slots tree txn).mstable m' =
      t.store.mstable m' := fun m' hm' => update_of_ne hm' _ _
  have hplaced : Placed InSlot cfg ⟨t.store.afterPut call m slots tree txn,
      t.ledger ++ [⟨call, some (.mem m)⟩]⟩ := by
    refine h.toPlaced.afterPut ofSlots_inSlot hc hview.stored fun hclass => ?_
    rintro ⟨slot, hslot⟩
    exact hview.kept (slotOf_congr (hcid.trans hclass.symm) hslots hslot)
  have htiered : (t.store.afterPut call m slots tree txn).tiered =
      t.store.tiered.put m removed new := by
    refine TreeSeries.tiered_put (fun k => ?_) (fun k => ?_) hother rfl rfl rfl rfl
    · rw [hview.keys, hkeys]
    · change tree[k]? = _
      by_cases hn : k ∈ new
      · rw [if_pos hn, hview.inserted k hn]
      · rw [if_neg hn]
        by_cases hrem : k ∈ removed
        · rw [if_pos hrem, hview.erased k hrem hn]
        · rw [if_neg hrem, hview.untouched k hrem hn]
  have hidle : ∀ d, ¬ t.store.tiered.pending m d :=
    (hplaced.placed _ (mem_append_right _ mem_cons_self) _ rfl).1
  have hfresh : ∀ k ∈ new, ∀ p, k ∉ t.store.tiered.keys p := by
    intro k hk p hkp
    obtain ⟨hsource, hmetric, hstart, -⟩ := hview.fresh k hk
    have hkey : k = call.keyAt k.time := by rw [PutCall.keyAt, ← hsource, ← hmetric]
    rw [hkey] at hkp
    cases p with
    | inl m' => exact h.not_hasKey_of_increasing hinc hstart (.mem m') hkp
    | inr d => exact h.not_hasKey_of_increasing hinc hstart (.disk d) hkp
  refine hplaced.indexed (htiered ▸ h.valid.put hidle
    (fun k hk => (hkeys k).1 (hview.removed_sub k hk)) hfresh) (fun m' => ?_) fun p k hk => ?_
  · by_cases hm' : m' = m
    · subst hm'
      exact hview.slotsOk
    · simpa only [hother m' hm'] using h.slotsOk m'
  · have hold : (t.store.sinfo p).HasKey k → ∃ e ∈ t.ledger ++ [⟨call, some (.mem m)⟩],
        e.call.sourceId = k.sourceId ∧ e.call.metricId = k.metricId ∧
          k.time ≤ e.call.endTime.toNat := by
      intro hk'
      obtain ⟨e, he, hids⟩ := h.bounded p k hk'
      exact ⟨e, mem_append_left _ he, hids⟩
    by_cases hp : p = .mem m
    · subst hp
      rcases (hview.keys k).1 hk with ⟨hk', -⟩ | hnew
      · exact hold ((hkeys k).1 hk')
      · obtain ⟨hsource, hmetric, -, hend⟩ := hview.fresh k hnew
        exact ⟨_, mem_append_right _ mem_cons_self, hsource.symm, hmetric.symm, hend⟩
    · refine hold ?_
      cases p with
      | mem m' =>
        have hm' : m' ≠ m := fun he => hp (congrArg Place.mem he)
        simpa only [sinfo, hother m' hm'] using hk
      | disk d => exact hk

section Step

variable (hr : InRange call) {m : ℕ}
  (hc : t.store.slabOf call.cid = some m) {slots : List Slot}
  {tree : MassTree} {txn : ℕ → ℤ}
  (hstep : SlotStep call m ((t.store.mstable m).taking call) t.store.massTree slots tree)

include hr hc hstep

theorem Indexed.afterPut : Indexed cfg ⟨t.store.afterPut call m slots tree txn,
    t.ledger ++ [⟨call, some (.mem m)⟩]⟩ := by
  have hself := t.store.mstable_afterPut_self call m slots tree txn
  have hcid : ((t.store.mstable m).taking call).cid = call.cid := rfl
  have hclass : ((t.store.afterPut call m slots tree txn).mstable m).cid =
      ((t.store.mstable m).taking call).cid := by rw [hself]
  have hstep' : SlotStep call m ((t.store.mstable m).taking call) t.store.massTree
      ((t.store.afterPut call m slots tree txn).mstable m).slots tree := by
    rw [hself]
    exact hstep
  obtain ⟨removed, new, hview⟩ := h.putView hinc hr hc hcid rfl hclass hstep'
  exact h.put hinc hc hcid rfl hview

end Step

end AfterPut

theorem Indexed.conPutKV (h : t.Indexed cfg) (hinc : t.Increasing call) (hr : InRange call)
    {sid : Option ℕ} (hput : t.store.conPutKV cfg call = .ok (sid, s)) :
    (t.record call (sid, s)).Indexed cfg := by
  rcases conPutKV_cases hput with ⟨rfl, rfl⟩ | ⟨m, s₁, rfl, hcur, hslab⟩
  · exact h
  · obtain ⟨-, -, slots, tree, txn, hstep, rfl⟩ := putInSlab_eq_ok hslab
    have hinc₁ : Increasing ⟨s₁, t.ledger⟩ call := hinc
    have hc := slabOf_currentSlab_self hcur
    exact (h.currentSlab hcur).afterPut hinc₁ hr hc hstep

/-! ## Batch write and migration -/

section Batch

variable {cfg : Setting} {t : Traced} (h : t.Indexed cfg) (hne : t.store.batchFull cfg ≠ [])
  (hlen : (t.store.batchFull cfg).length = (t.store.batchDisk cfg).length)

include hne hlen in
theorem writeBatch_frame (hs : t.store.Owned cfg) :
    (t.store.writeBatch cfg).mstable = t.store.mstable ∧
      (t.store.writeBatch cfg).slabOf = t.store.slabOf ∧
      (t.store.writeBatch cfg).freeMsinfoq = t.store.freeMsinfoq := by
  rw [writeBatch_eq hne hlen hs.nodup_batchDisk]
  exact ⟨rfl, rfl, rfl⟩

include hlen in
theorem notMem_written (howned : t.store.Owned cfg) {d : ℕ} (hlive : d ∈ t.store.tiered.live)
    (hev : d ∉ t.store.batchEvicted cfg) :
    d ∉ (t.store.batchWritten cfg).map Prod.snd := by
  intro hd
  obtain ⟨⟨m, d'⟩, hw, rfl⟩ := mem_map.1 hd
  exact ((howned.flushable hlen).idle hw).elim (fun hout => hout hlive) hev

include hlen in
theorem relocate_of_written (howned : t.store.Owned cfg) {m d : ℕ}
    (hw : (m, d) ∈ t.store.batchWritten cfg) :
    relocate (t.store.batchEvicted cfg) (t.store.batchWritten cfg) (.mem m) = some (.disk d) := by
  cases hfind : (t.store.batchWritten cfg).find? fun w => w.1 == m with
  | none => simpa using find?_eq_none.1 hfind _ hw
  | some w =>
    have hm : w.1 = m := by simpa using find?_some hfind
    obtain rfl : w = (m, d) := inj_on_of_nodup_map (howned.nodup_batchWritten hlen).1
      (mem_of_find?_eq_some hfind) hw hm
    simp [relocate, hfind]

theorem relocate_of_notMem {m : ℕ}
    (hw : ∀ d, (m, d) ∉ t.store.batchWritten cfg) :
    relocate (t.store.batchEvicted cfg) (t.store.batchWritten cfg) (.mem m) = some (.mem m) := by
  have hfind : (t.store.batchWritten cfg).find? (fun w => w.1 == m) = none := by
    refine find?_eq_none.2 fun w hmem hm => hw w.2 ?_
    rwa [← show w.1 = m by simpa using hm]
  simp [relocate, hfind]

variable {p q : Place}

include hlen in
theorem relocate_cases (howned : t.store.Owned cfg) (hans : t.store.tiered.Answers q.toSum)
    (hp : relocate (t.store.batchEvicted cfg) (t.store.batchWritten cfg) q = some p) :
    (∃ m d, q = .mem m ∧ p = .disk d ∧ (m, d) ∈ t.store.batchWritten cfg) ∨
      (∃ m, q = .mem m ∧ p = .mem m ∧ ∀ d, (m, d) ∉ t.store.batchWritten cfg) ∨
      ∃ d, q = .disk d ∧ p = .disk d ∧ d ∉ t.store.batchEvicted cfg ∧
        d ∉ (t.store.batchWritten cfg).map Prod.snd := by
  cases q with
  | mem m =>
    by_cases hw : ∃ d, (m, d) ∈ t.store.batchWritten cfg
    · obtain ⟨d, hw⟩ := hw
      rw [relocate_of_written hlen howned hw, Option.some.injEq] at hp
      exact Or.inl ⟨m, d, rfl, hp.symm, hw⟩
    · rw [not_exists] at hw
      rw [relocate_of_notMem hw, Option.some.injEq] at hp
      exact Or.inr (Or.inl ⟨m, rfl, hp.symm, hw⟩)
  | disk d =>
    by_cases hev : d ∈ t.store.batchEvicted cfg
    · simp [relocate, hev] at hp
    · obtain rfl : Place.disk d = p := by simpa [relocate, hev] using hp
      exact Or.inr (Or.inr ⟨d, rfl, rfl, hev, notMem_written hlen howned hans hev⟩)

include hne hlen in
theorem sinfo_relocate (howned : t.store.Owned cfg) (hans : t.store.tiered.Answers q.toSum)
    (hp : relocate (t.store.batchEvicted cfg) (t.store.batchWritten cfg) q = some p) :
    (t.store.writeBatch cfg).tiered.Answers p.toSum ∧
      ((t.store.writeBatch cfg).sinfo p).cid = (t.store.sinfo q).cid ∧
      ((t.store.writeBatch cfg).sinfo p).slots = (t.store.sinfo q).slots := by
  rw [howned.tiered_writeBatch hne hlen]
  rcases relocate_cases hlen howned hans hp with ⟨m, d, rfl, rfl, hw⟩ | ⟨m, rfl, rfl, hw⟩ |
    ⟨d, rfl, rfl, hev, hw⟩
  · obtain ⟨hcid, hslots, -⟩ := howned.writeBatch_written hne hlen hw
    exact ⟨Or.inr ⟨m, hw⟩, hcid, hslots⟩
  · refine ⟨fun d hd => hd.elim (hans d) (hw d), ?_⟩
    simp only [sinfo, (writeBatch_frame hne hlen howned).1, and_self]
  · refine ⟨Or.inl ⟨hans, hev⟩, ?_⟩
    simp only [sinfo, (howned.writeBatch_other hne hlen hev hw).1, and_self]

include hne hlen in
theorem Placed.writeBatch (hP : OfSlots P) (h : t.Placed P cfg) :
    Placed P cfg ⟨t.store.writeBatch cfg, t.relocateAll cfg⟩ := by
  obtain ⟨hmem, hslab, hfree⟩ := writeBatch_frame hne hlen h.owned
  refine ⟨h.owned.writeBatch hne hlen, fun c m hc => ?_, fun m hm => ?_, fun e he p hp => ?_⟩
  · simpa only [hmem] using h.current c m (hslab ▸ hc)
  · simpa only [hmem] using h.free m (hfree ▸ hm)
  · obtain ⟨e₀, he₀, rfl⟩ := mem_map.1 he
    obtain ⟨q, hq, hqp⟩ := Option.bind_eq_some_iff.1 hp
    obtain ⟨hans, hin⟩ := h.placed e₀ he₀ q hq
    obtain ⟨hans', hcid, hslots⟩ := sinfo_relocate hne hlen h.owned hans hqp
    exact ⟨hans', hP.congr hcid hslots hin⟩

include h hne hlen

theorem Indexed.exists_hasKey_of_writeBatch {k : Key}
    (hk : ((t.store.writeBatch cfg).sinfo p).HasKey k) : ∃ q, (t.store.sinfo q).HasKey k := by
  cases p with
  | mem m =>
    simp only [sinfo, (writeBatch_frame hne hlen h.owned).1] at hk
    exact ⟨.mem m, hk⟩
  | disk d =>
    by_cases hw : d ∈ (t.store.batchWritten cfg).map Prod.snd
    · obtain ⟨⟨m, d'⟩, hpair, rfl⟩ := mem_map.1 hw
      obtain ⟨hcid, hslots, -⟩ := h.owned.writeBatch_written hne hlen hpair
      exact ⟨.mem m, (hasKey_congr hcid hslots k).1 hk⟩
    · by_cases hev : d ∈ t.store.batchEvicted cfg
      · exact absurd hk (not_hasKey (h.owned.writeBatch_evicted hne hlen hev hw) k)
      · simp only [sinfo, (h.owned.writeBatch_other hne hlen hev hw).1] at hk
        exact ⟨.disk d, hk⟩

theorem Indexed.writeBatch : Indexed cfg ⟨t.store.writeBatch cfg, t.relocateAll cfg⟩ := by
  obtain ⟨hmem, -⟩ := writeBatch_frame hne hlen h.owned
  refine (h.toPlaced.writeBatch hne hlen ofSlots_inSlot).indexed ?_ (fun m => ?_) fun p k hk => ?_
  · rw [h.owned.tiered_writeBatch hne hlen]
    exact h.valid.flush (h.owned.flushable hlen)
  · simpa only [hmem] using h.slotsOk m
  · obtain ⟨q, hq⟩ := h.exists_hasKey_of_writeBatch hne hlen hk
    obtain ⟨e, he, hids⟩ := h.bounded q k hq
    exact ⟨_, mem_map.2 ⟨e, he, rfl⟩, hids⟩

end Batch

theorem sinfo_pushBack (p : Place) : (s.pushBack cfg).sinfo p = s.sinfo p := by
  cases p <;> rfl

theorem Placed.pushBack (h : t.Placed P cfg) : Placed P cfg ⟨t.store.pushBack cfg, t.ledger⟩ :=
  h.congr h.owned.pushBack rfl sinfo_pushBack rfl rfl

theorem Indexed.pushBack (h : t.Indexed cfg) : Indexed cfg ⟨t.store.pushBack cfg, t.ledger⟩ :=
  h.congr h.toPlaced.pushBack rfl sinfo_pushBack

theorem migrateReadLazyFlush_frame {s' : TreeSeries} {res : Option (List (ℕ × Slab))}
    (hread : s.migrateReadLazyFlush cfg = .ok (res, s')) :
    s'.tiered = s.tiered ∧ (∀ p, s'.sinfo p = s.sinfo p) ∧ s'.slabOf = s.slabOf ∧
      s'.freeMsinfoq = s.freeMsinfoq := by
  rcases migrateReadLazyFlush_cases hread with ⟨-, rfl⟩ | ⟨-, -, -, rfl⟩
  · exact ⟨rfl, fun _ => rfl, rfl, rfl⟩
  · refine ⟨?_, ?_, rfl, rfl⟩
    · ext1
      · rfl
      · rfl
      · rfl
      · rfl
      · ext d
        have hsplit : d ∈ s.usedDsinfoq ↔ d ∈ s.usedDsinfoq.take cfg.nbufSlab ∨
            d ∈ s.usedDsinfoq.drop cfg.nbufSlab := by
          rw [← mem_append, take_append_drop]
        change (d ∈ s.usedDsinfoq.drop cfg.nbufSlab ∨
          d ∈ s.diskEvictSinfoq ++ s.usedDsinfoq.take cfg.nbufSlab) ↔
          d ∈ s.usedDsinfoq ∨ d ∈ s.diskEvictSinfoq
        rw [hsplit, mem_append]
        constructor
        · rintro (hdrop | hevict | htake)
          · exact Or.inl (Or.inr hdrop)
          · exact Or.inr hevict
          · exact Or.inl (Or.inl htake)
        · rintro ((htake | hdrop) | hevict)
          · exact Or.inr (Or.inr htake)
          · exact Or.inl hdrop
          · exact Or.inr (Or.inl hevict)
    · rintro (m | d) <;> rfl

theorem Placed.migrateReadLazyFlush (h : t.Placed P cfg) {res : Option (List (ℕ × Slab))}
    (hread : t.store.migrateReadLazyFlush cfg = .ok (res, s)) : Placed P cfg ⟨s, t.ledger⟩ := by
  obtain ⟨hmem, hdisk, -⟩ := migrateReadLazyFlush_counts hread
  obtain ⟨htiered, hsinfo, hslab, hfree⟩ := migrateReadLazyFlush_frame hread
  exact h.congr (h.owned.of_counts hmem hdisk) htiered hsinfo hslab hfree

theorem Indexed.migrateReadLazyFlush (h : t.Indexed cfg) {res : Option (List (ℕ × Slab))}
    (hread : t.store.migrateReadLazyFlush cfg = .ok (res, s)) : Indexed cfg ⟨s, t.ledger⟩ := by
  obtain ⟨htiered, hsinfo, -⟩ := migrateReadLazyFlush_frame hread
  exact h.congr (h.toPlaced.migrateReadLazyFlush hread) htiered hsinfo

theorem Indexed.step {t' : Traced} (h : t.Indexed cfg) {op : Op} (hop : t.AllowedInRange op)
    (hstep : t.step cfg op = .ok t') : t'.Indexed cfg := by
  cases op with
  | conPutKV call =>
    obtain ⟨p, hput, rfl⟩ := Run.map_eq_ok hstep
    exact h.conPutKV hop.1 hop.2 hput
  | optBatchWriteLazyFlush =>
    obtain ⟨⟨b, s⟩, hwrite, rfl⟩ := Run.map_eq_ok hstep
    rcases optBatchWriteLazyFlush_cases hwrite with ⟨-, rfl, rfl⟩ | ⟨-, -, rfl, rfl⟩ |
      ⟨-, -, rfl, hne, hlen, rfl⟩
    · exact h
    · exact h.pushBack
    · exact h.writeBatch hne hlen
  | migrateReadLazyFlush =>
    obtain ⟨p, hread, rfl⟩ := Run.map_eq_ok hstep
    exact h.migrateReadLazyFlush hread
  | forceFlush => exact absurd hop id

end Traced

/-- In every state that is reached under lazy flush by puts whose ids survive the
folding, the index is exact. -/
theorem treeSeries_indexExact (cfg : Setting) (mslab dslab : ℕ → Slab) (t : Traced)
    (hrun : Run.Reaches Traced.AllowedInRange (Traced.step cfg)
      ⟨TreeSeries.initStable cfg mslab dslab, []⟩ t) : t.IndexExact :=
  (hrun.invariant (Traced.indexed_initStable cfg mslab dslab)
    fun _ _ _ ih hop hstep => ih.step hop hstep).exact

/-- Two slabs are filled, written, read for the migration, and the first is taken
again once no slab is free. -/
theorem treeSeries_indexExact_reused :
    ∃ t, Run.Reaches Traced.AllowedInRange (Traced.step sampleSetting) ⟨sampleStore, []⟩ t ∧
      t.store.massTree[(⟨1, 1, 0⟩ : Key)]? = some (.disk 0) ∧ t.IndexExact := by
  have hrun : (Run.exec Traced.AllowedInRange (Traced.step sampleSetting) ⟨sampleStore, []⟩
      (samplePuts 1 0 32 ++ [.optBatchWriteLazyFlush, .migrateReadLazyFlush] ++
        (List.range 11).map fun i => .conPutKV (samplePut (i + 2) 0))).map
      (fun t => t.store.massTree[(⟨1, 1, 0⟩ : Key)]?) = some (some (.disk 0)) := by
    decide +kernel
  obtain ⟨t, hreach, hview⟩ := Run.exists_reaches_of_exec hrun
  exact ⟨t, hreach, hview, treeSeries_indexExact sampleSetting _ _ t hreach⟩

/-- The ids of source 2560001 fold to those of source 1: its chunk extends the slot of
source 1, whose old end key stays in the index although no slot ends there. -/
theorem treeSeries_index_staleKey :
    ∃ t, Run.Reaches Traced.Allowed (Traced.step sampleSetting) ⟨sampleStore, []⟩ t ∧
      ¬ t.IndexExact := by
  have hrun : (Run.exec Traced.Allowed (Traced.step sampleSetting) ⟨sampleStore, []⟩
      [.conPutKV (samplePut 1 0), .conPutKV (samplePut 2560001 1)]).map
      (fun t => (t.store.massTree[(⟨1, 1, 1⟩ : Key)]?, (t.store.mstable 0).slots)) =
        some (some (.mem 0), [⟨0, 0, 0, 3⟩]) := by
    decide +kernel
  obtain ⟨t, hreach, hview⟩ := Run.exists_reaches_of_exec hrun
  obtain ⟨hkey, hslots⟩ := Prod.mk.inj hview
  refine ⟨t, hreach, fun h => ?_⟩
  obtain ⟨slot, hslot, -, -, htime⟩ := h.sound _ _ hkey
  rw [show (t.store.sinfo (.mem 0)).slots = [⟨0, 0, 0, 3⟩] from hslots,
    mem_singleton] at hslot
  subst hslot
  exact absurd htime (by decide)

end PromTCS
