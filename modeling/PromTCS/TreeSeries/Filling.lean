import PromTCS.TreeSeries.Folding

/-!
# Slabs as they are filled

A slab is filled by puts, one item after the other. A batch write moves it to a disk slab as it
is, and the memory slab is emptied before it is filled again. So what holds of an empty slab and
is kept by a put holds of every slab and of the chunks that are in it, wherever the slab is.
-/

namespace PromTCS

open List Function

namespace Traced

open TreeSeries

def callsAt (ledger : List Stored) (p : Place) : List PutCall :=
  (ledger.filter fun e => e.slab = some p).map Stored.call

variable {call : PutCall} {p : Place} {m : ℕ} {slot : Slot}

theorem mem_callsAt {ledger : List Stored} :
    call ∈ callsAt ledger p ↔ ∃ e ∈ ledger, e.slab = some p ∧ e.call = call := by
  simp only [callsAt, mem_map, mem_filter, decide_eq_true_eq, and_assoc]

theorem callsAt_append_self (ledger : List Stored) (call : PutCall) (p : Place) :
    callsAt (ledger ++ [⟨call, some p⟩]) p = callsAt ledger p ++ [call] := by
  simp [callsAt]

theorem callsAt_append_of_ne (ledger : List Stored) (call : PutCall) {q : Place} (h : p ≠ q) :
    callsAt (ledger ++ [⟨call, some q⟩]) p = callsAt ledger p := by
  simp [callsAt, h.symm]

/-- `P` holds of an empty slab, and a put of a call with `Q` keeps it. -/
structure SlabRule (Q : PutCall → Prop) (P : SlabInfo → Slab → List PutCall → Prop) : Prop where
  empty : ∀ {info : SlabInfo} {slab : Slab}, info.slots = [] → info.nalloc = 0 → P info slab []
  congr : ∀ {info info' : SlabInfo} {slab : Slab} {calls : List PutCall},
    info'.cid = info.cid → info'.slots = info.slots → info'.nalloc = info.nalloc →
      P info slab calls → P info' slab calls
  put : ∀ {info : SlabInfo} {slab : Slab} {calls : List PutCall} {call : PutCall} {m : ℕ}
    {tree tree' : MassTree} {slots : List Slot},
    (info.slots = [] ∨ info.cid = classOf call.sourceId call.metricId) → Q call →
      P info slab calls →
      SlotStep call m
        { info with
          cid := classOf call.sourceId call.metricId
          nalloc := info.nalloc + 1 } tree slots tree' →
      P { info with
          cid := classOf call.sourceId call.metricId
          slots := slots
          nalloc := info.nalloc + 1 }
        (update slab info.nalloc (putItem call (slab info.nalloc))) (calls ++ [call])

/-- Every slab that answers for its keys has `P`, with the chunks that are in it. -/
def Slabs (P : SlabInfo → Slab → List PutCall → Prop) (t : Traced) : Prop :=
  ∀ p, t.store.tiered.Answers p.toSum →
    P (t.store.sinfo p) (t.store.slabAt p) (callsAt t.ledger p)

variable {cfg : Setting} {t : Traced} {Q : PutCall → Prop}
  {P : SlabInfo → Slab → List PutCall → Prop}

theorem SlabRule.initStable (hrule : SlabRule Q P) (cfg : Setting) (mslab dslab : ℕ → Slab) :
    Slabs P ⟨initStable cfg mslab dslab, []⟩ := by
  rintro (m | d) - <;> exact hrule.empty rfl rfl

theorem Slabs.congr (h : t.Slabs P) {s : TreeSeries} (htiered : s.tiered = t.store.tiered)
    (hsinfo : ∀ p, s.sinfo p = t.store.sinfo p) (hslab : ∀ p, s.slabAt p = t.store.slabAt p) :
    Slabs P ⟨s, t.ledger⟩ := by
  intro p hans
  simp only [hsinfo, hslab]
  exact h p (htiered ▸ hans)

/-! ## Put -/

theorem currentSlab_other {s s₁ : TreeSeries} {c : ClassId} (hcur : s.currentSlab c = some (m, s₁))
    (hp : p ≠ .mem m) :
    s₁.sinfo p = s.sinfo p ∧ s₁.slabAt p = s.slabAt p ∧
      (s₁.tiered.Answers p.toSum → s.tiered.Answers p.toSum) := by
  obtain ⟨hframe, hself⟩ := currentSlab_frame hcur
  cases p with
  | disk d =>
    refine ⟨congrFun hframe.dstable d, congrFun hframe.dslab d, fun hans => ?_⟩
    have hlive : s₁.tiered.live = s.tiered.live := by
      simp only [tiered, hframe.used, hframe.evict]
    exact (Set.ext_iff.1 hlive d).1 hans
  | mem m' =>
    have hm' : m' ≠ m := fun heq => hp (congrArg Place.mem heq)
    refine ⟨hframe.other m' hm', congrFun hframe.mslab m', fun hans d hd => ?_⟩
    rcases hself with ⟨-, -, -, hevict⟩ | ⟨-, d', hevict⟩
    · exact hans d (show (m', d) ∈ s₁.memEvictSinfoq from hevict ▸ hd)
    · have hin : (m', d) ∈ (m, d') :: s₁.memEvictSinfoq := hevict ▸ hd
      rcases mem_cons.1 hin with heq | hin
      · exact hm' (Prod.mk.inj heq).1
      · exact hans d hin

theorem Slabs.currentSlab (hrule : SlabRule Q P) (h : t.Slabs P)
    (hplaced : ∀ e ∈ t.ledger, ∀ p, e.slab = some p → t.store.tiered.Answers p.toSum) {c : ClassId}
    {s₁ : TreeSeries} (hcur : t.store.currentSlab c = some (m, s₁)) : Slabs P ⟨s₁, t.ledger⟩ := by
  intro p hans
  by_cases hpm : p = .mem m
  · subst hpm
    rcases currentSlab_cases hcur with ⟨-, rfl⟩ | ⟨-, rest, -, rfl⟩ | ⟨-, -, d, rest, hev, rfl⟩
    · exact h _ hans
    · refine hrule.congr ?_ ?_ ?_ (h (.mem m) hans) <;> simp [sinfo]
    · -- The chunks that were in the slab are on disk.
      have hnone : callsAt t.ledger (.mem m) = [] := by
        refine eq_nil_iff_forall_not_mem.2 fun call hcall => ?_
        obtain ⟨e, he, hp, -⟩ := mem_callsAt.1 hcall
        exact hplaced e he _ hp d (show (m, d) ∈ t.store.memEvictSinfoq from
          hev ▸ mem_cons_self)
      change P _ _ (callsAt t.ledger (.mem m))
      rw [hnone]
      refine hrule.empty ?_ ?_ <;> simp [sinfo, SlabInfo.freeSlab]
  · obtain ⟨hsinfo, hslab, hans'⟩ := currentSlab_other hcur hpm
    simp only [hsinfo, hslab]
    exact h p (hans' hans)

theorem Slabs.put (hrule : SlabRule Q P) (h : t.Slabs P) {call : PutCall} (hq : Q call) {m : ℕ}
    (hclass : (t.store.mstable m).slots = [] ∨
      (t.store.mstable m).cid = call.cid)
    {slots : List Slot} {tree : MassTree} {txn : ℕ → ℤ}
    (hstep : SlotStep call m ((t.store.mstable m).taking call) t.store.massTree slots tree) :
    Slabs P ⟨t.store.afterPut call m slots tree txn, t.ledger ++ [⟨call, some (.mem m)⟩]⟩ := by
  intro p hans
  have hans' : t.store.tiered.Answers p.toSum := by
    cases p with
    | mem m' => exact hans
    | disk d => exact hans
  by_cases hpm : p = .mem m
  · subst hpm
    have hself := t.store.mstable_afterPut_self call m slots tree txn
    have hitems : (t.store.afterPut call m slots tree txn).mslab m =
        update (t.store.mslab m) (t.store.mstable m).nalloc
          (putItem call (t.store.mslab m (t.store.mstable m).nalloc)) := update_self _ _ _
    simp only [callsAt_append_self, sinfo, slabAt, hself, hitems]
    exact hrule.put hclass hq (h _ hans') hstep
  · rw [callsAt_append_of_ne _ _ hpm]
    cases p with
    | disk d => exact h _ hans'
    | mem m' =>
      have hm' : m' ≠ m := fun heq => hpm (congrArg Place.mem heq)
      have hsinfo : (t.store.afterPut call m slots tree txn).mstable m' = t.store.mstable m' :=
        update_of_ne hm' _ _
      have hslab : (t.store.afterPut call m slots tree txn).mslab m' = t.store.mslab m' :=
        update_of_ne hm' _ _
      simp only [sinfo, slabAt, hsinfo, hslab]
      exact h _ hans'

/-! ## Batch write -/

section Batch

variable (hne : t.store.batchFull cfg ≠ [])
  (hlen : (t.store.batchFull cfg).length = (t.store.batchDisk cfg).length)

include hlen

variable {p q : Place}

theorem relocate_inj (howned : t.store.Owned cfg) {r : Place} (hp : t.store.tiered.Answers p.toSum)
    (hq : t.store.tiered.Answers q.toSum)
    (hpr : relocate (t.store.batchEvicted cfg) (t.store.batchWritten cfg) p = some r)
    (hqr : relocate (t.store.batchEvicted cfg) (t.store.batchWritten cfg) q = some r) : p = q := by
  rcases relocate_cases hlen howned hp hpr with ⟨m, d, rfl, rfl, hw⟩ | ⟨m, rfl, rfl, hw⟩ |
    ⟨d, rfl, rfl, -, hd⟩
  · rcases relocate_cases hlen howned hq hqr with ⟨m', d', rfl, heq, hw'⟩ | ⟨m', -, heq, -⟩ |
      ⟨d', -, heq, -, hd'⟩
    · obtain rfl := Place.disk.inj heq
      obtain ⟨hm, -⟩ := Prod.mk.inj
        (inj_on_of_nodup_map (howned.nodup_batchWritten hlen).2 hw hw' rfl)
      exact congrArg Place.mem hm
    · cases heq
    · obtain rfl := Place.disk.inj heq
      exact absurd (mem_map.2 ⟨_, hw, rfl⟩) hd'
  · rcases relocate_cases hlen howned hq hqr with ⟨m', d', -, heq, -⟩ | ⟨m', rfl, heq, -⟩ |
      ⟨d', -, heq, -⟩
    · cases heq
    · exact heq
    · cases heq
  · rcases relocate_cases hlen howned hq hqr with ⟨m', d', -, heq, hw'⟩ | ⟨m', -, heq, -⟩ |
      ⟨d', rfl, heq, -⟩
    · obtain rfl := Place.disk.inj heq
      exact absurd (mem_map.2 ⟨_, hw', rfl⟩) hd
    · cases heq
    · exact heq

include hne

theorem exists_relocate_eq (howned : t.store.Owned cfg)
    (hans : (t.store.writeBatch cfg).tiered.Answers p.toSum) :
    ∃ q, t.store.tiered.Answers q.toSum ∧
      relocate (t.store.batchEvicted cfg) (t.store.batchWritten cfg) q = some p := by
  rw [howned.tiered_writeBatch hne hlen] at hans
  cases p with
  | mem m =>
    exact ⟨.mem m, fun d hd => hans d (Or.inl hd), relocate_of_notMem fun d hw =>
      hans d (Or.inr hw)⟩
  | disk d =>
    rcases hans with ⟨hlive, hev⟩ | ⟨m, hw⟩
    · exact ⟨.disk d, hlive, if_neg hev⟩
    · exact ⟨.mem m, fun d' => howned.notMem_evict_of_full
        (mem_of_mem_take (mem_batchWritten hlen hw).1), relocate_of_written hlen howned hw⟩

theorem contents_relocate (howned : t.store.Owned cfg) (hans : t.store.tiered.Answers q.toSum)
    (hp : relocate (t.store.batchEvicted cfg) (t.store.batchWritten cfg) q = some p) :
    ((t.store.writeBatch cfg).sinfo p).nalloc = (t.store.sinfo q).nalloc ∧
      (t.store.writeBatch cfg).slabAt p = t.store.slabAt q := by
  rcases relocate_cases hlen howned hans hp with ⟨m, d, rfl, rfl, hw⟩ | ⟨m, rfl, rfl, -⟩ |
    ⟨d, rfl, rfl, hev, hw⟩
  · exact (howned.writeBatch_written hne hlen hw).2.2
  · rw [writeBatch_eq hne hlen howned.nodup_batchDisk]
    exact ⟨rfl, rfl⟩
  · obtain ⟨htable, hslab⟩ := howned.writeBatch_other hne hlen hev hw
    exact ⟨congrArg SlabInfo.nalloc htable, hslab⟩

omit hne in
theorem callsAt_relocateAll (howned : t.store.Owned cfg)
    (hplaced : ∀ e ∈ t.ledger, ∀ p, e.slab = some p → t.store.tiered.Answers p.toSum)
    (hans : t.store.tiered.Answers q.toSum)
    (hp : relocate (t.store.batchEvicted cfg) (t.store.batchWritten cfg) q = some p) :
    callsAt (t.relocateAll cfg) p = callsAt t.ledger q := by
  unfold callsAt relocateAll
  rw [filter_map, map_map]
  congr 1
  refine filter_congr fun e he => decide_eq_decide.2 ?_
  refine Option.bind_eq_some_iff.trans ⟨?_, fun hq => ⟨q, hq, hp⟩⟩
  rintro ⟨q', hq', hqp'⟩
  rw [hq', relocate_inj hlen howned (hplaced e he q' hq') hans hqp' hp]

theorem Slabs.writeBatch (hrule : SlabRule Q P) (h : t.Slabs P) (howned : t.store.Owned cfg)
    (hplaced : ∀ e ∈ t.ledger, ∀ p, e.slab = some p → t.store.tiered.Answers p.toSum) :
    Slabs P ⟨t.store.writeBatch cfg, t.relocateAll cfg⟩ := by
  intro p hans
  obtain ⟨q, hq, hqp⟩ := exists_relocate_eq hne hlen howned hans
  obtain ⟨-, hcid, hslots⟩ := sinfo_relocate hne hlen howned hq hqp
  obtain ⟨hnalloc, hslab⟩ := contents_relocate hne hlen howned hq hqp
  simp only [hslab, callsAt_relocateAll hlen howned hplaced hq hqp]
  exact hrule.congr hcid hslots hnalloc (h q hq)

end Batch

/-! ## Runs -/

theorem Slabs.step (hrule : SlabRule Q P) (h : t.Slabs P) (hkept : t.Kept cfg) {op : Op}
    (hop : op ≠ .forceFlush) (hq : ∀ call, op = .conPutKV call → Q call) {t' : Traced}
    (hstep : t.step cfg op = .ok t') : t'.Slabs P := by
  have hplaced : ∀ e ∈ t.ledger, ∀ p, e.slab = some p → t.store.tiered.Answers p.toSum :=
    fun e he p hp => (hkept.placed e he p hp).1
  cases op with
  | conPutKV call =>
    obtain ⟨⟨sid, s⟩, hput, rfl⟩ := Run.map_eq_ok hstep
    rcases conPutKV_cases hput with ⟨rfl, rfl⟩ | ⟨m, s₁, rfl, hcur, hslab⟩
    · exact h
    · obtain ⟨-, -, slots, tree, txn, hslots, rfl⟩ := putInSlab_eq_ok hslab
      have hc := slabOf_currentSlab_self hcur
      exact (h.currentSlab hrule hplaced hcur).put hrule (hq call rfl)
        ((hkept.currentSlab ofSlots_holdsSeries hcur).current _ m hc) hslots
  | optBatchWriteLazyFlush =>
    obtain ⟨⟨b, s⟩, hwrite, rfl⟩ := Run.map_eq_ok hstep
    rcases optBatchWriteLazyFlush_cases hwrite with ⟨-, rfl, rfl⟩ | ⟨-, -, rfl, rfl⟩ |
      ⟨-, -, rfl, hne, hlen, rfl⟩
    · exact h
    · refine h.congr rfl ?_ ?_ <;> rintro (m | d) <;> rfl
    · exact h.writeBatch hne hlen hrule hkept.owned hplaced
  | migrateReadLazyFlush =>
    obtain ⟨⟨res, s⟩, hread, rfl⟩ := Run.map_eq_ok hstep
    obtain ⟨htiered, hsinfo, -⟩ := migrateReadLazyFlush_frame hread
    refine h.congr htiered hsinfo ?_
    rcases migrateReadLazyFlush_cases hread with ⟨-, rfl⟩ | ⟨-, -, -, rfl⟩
    · exact fun _ => rfl
    · rintro (m | d) <;> rfl
  | forceFlush => exact absurd rfl hop

theorem Indexed.answers (h : t.Indexed cfg) :
    ∀ e ∈ t.ledger, ∀ p, e.slab = some p → t.store.tiered.Answers p.toSum :=
  fun e he p hp => (h.placed e he p hp).1

/-! ## The items and the slots -/

instance (slot : Slot) (sourceId metricId : ℕ) : Decidable (slot.Matches sourceId metricId) :=
  inferInstanceAs (Decidable (_ ∧ _))

def slotCalls (slot : Slot) (calls : List PutCall) : List PutCall :=
  calls.filter fun call => slot.Matches call.sourceId call.metricId

def ItemHolds (item : Item) (call : PutCall) : Prop :=
  item.timestamp = call.startTime.toNat ∧ call.value.take chunkSize <+: item.chunk

structure Filled (info : SlabInfo) (slab : Slab) (calls : List PutCall) : Prop where
  nalloc_eq : info.nalloc = calls.length
  items : ∀ k call, calls[k]? = some call → ItemHolds (slab k) call
  inRange : ∀ call ∈ calls, InRange call
  holds : ∀ call ∈ calls, HoldsSeries info call
  distinct : (info.slots.map fun slot => (slot.sourceId, slot.metricId)).Nodup
  first : ∀ slot ∈ info.slots, ∃ call, (slotCalls slot calls).head? = some call ∧
    slot.startTime = call.startTime.toNat
  last : ∀ slot ∈ info.slots, ∃ call, (slotCalls slot calls).getLast? = some call ∧
    slot.endTime = call.endTime.toNat

theorem itemHolds_putItem (call : PutCall) (old : Item) : ItemHolds (putItem call old) call :=
  ⟨rfl, prefix_append _ _⟩

theorem slotCalls_append_of_matches (calls : List PutCall)
    (h : slot.Matches call.sourceId call.metricId) :
    slotCalls slot (calls ++ [call]) = slotCalls slot calls ++ [call] := by
  simp [slotCalls, h]

theorem slotCalls_append_of_not (calls : List PutCall)
    (h : ¬ slot.Matches call.sourceId call.metricId) :
    slotCalls slot (calls ++ [call]) = slotCalls slot calls := by
  simp [slotCalls, h]

theorem set_eq_self {α : Type*} {l : List α} {i : ℕ} {a : α} (h : l[i]? = some a) :
    l.set i a = l := by
  obtain ⟨hi, rfl⟩ := List.getElem?_eq_some_iff.1 h
  exact set_getElem_self hi

theorem nodup_slotStep {info : SlabInfo} {tree tree' : MassTree} {slots : List Slot}
    (h : SlotStep call m info tree slots tree')
    (hnodup : (info.slots.map fun slot => (slot.sourceId, slot.metricId)).Nodup) :
    (slots.map fun slot => (slot.sourceId, slot.metricId)).Nodup := by
  cases h with
  | extend j slot hfind hslot =>
    have hsame : (info.slots.map fun slot => (slot.sourceId, slot.metricId)).set j
        (slot.sourceId, slot.metricId) =
        info.slots.map fun slot => (slot.sourceId, slot.metricId) :=
      set_eq_self (by rw [getElem?_map, hslot, Option.map_some])
    rw [map_set, hsame]
    exact hnodup
  | add hfind hlen hunfold =>
    rw [map_append, map_singleton]
    refine List.nodup_append.2 ⟨hnodup, nodup_singleton _, ?_⟩
    rintro a ha b hb rfl
    obtain ⟨slot, hslot, heq⟩ := mem_map.1 ha
    obtain ⟨hsource, hmetric⟩ := Prod.mk.inj (heq.trans (mem_singleton.1 hb))
    have hnot := findIdx?_eq_none_iff.1 hfind slot hslot
    simp [hsource, hmetric, newSlot] at hnot

theorem slabRule_nodup : SlabRule (fun _ => True) fun info _ _ =>
    (info.slots.map fun slot => (slot.sourceId, slot.metricId)).Nodup where
  empty hslots _ := by simp [hslots]
  congr _ hslots _ h := hslots ▸ h
  put _ _ h hstep := nodup_slotStep hstep h

theorem slotStep_cases {info : SlabInfo} {tree tree' : MassTree} {slots : List Slot}
    (h : SlotStep call m info tree slots tree')
    (hnodup : (info.slots.map fun slot => (slot.sourceId, slot.metricId)).Nodup)
    (hslot : slot ∈ slots) :
    (slot ∈ info.slots ∧ ¬ slot.Matches call.sourceId call.metricId) ∨
      (slot.Matches call.sourceId call.metricId ∧
        ∃ old ∈ info.slots, slot = { old with endTime := call.endTime.toNat }) ∨
      (slot = newSlot call ∧ ∀ old ∈ info.slots, ¬ old.Matches call.sourceId call.metricId) := by
  cases h with
  | extend j old hfind hold =>
    have hfound := of_findIdx?_eq_some hfind
    simp only [hold, Bool.and_eq_true, beq_iff_eq] at hfound
    obtain ⟨i, hi⟩ := mem_iff_getElem?.1 hslot
    by_cases hij : i = j
    · subst hij
      rw [getElem?_set_self (List.getElem?_eq_some_iff.1 hold).1, Option.some.injEq] at hi
      subst hi
      exact Or.inr (Or.inl ⟨hfound, old, mem_of_getElem? hold, rfl⟩)
    · rw [getElem?_set_ne (Ne.symm hij)] at hi
      refine Or.inl ⟨mem_of_getElem? hi, fun hmatch => hij ?_⟩
      have hids : (slot.sourceId, slot.metricId) = (old.sourceId, old.metricId) :=
        Prod.ext (hmatch.1.trans hfound.1.symm) (hmatch.2.trans hfound.2.symm)
      have hlt := (List.getElem?_eq_some_iff.1 hi).1
      refine (getElem?_inj (by rwa [length_map]) hnodup).1 ?_
      rw [getElem?_map, getElem?_map, hi, hold, Option.map_some, Option.map_some, hids]
  | add hfind hlen hunfold =>
    have hnone : ∀ old ∈ info.slots, ¬ old.Matches call.sourceId call.metricId := by
      intro old hold hmatch
      have hnot := findIdx?_eq_none_iff.1 hfind old hold
      simp [hmatch.1, hmatch.2] at hnot
    rcases mem_append.1 hslot with hold | hnew
    · exact Or.inl ⟨hold, hnone slot hold⟩
    · exact Or.inr (Or.inr ⟨mem_singleton.1 hnew, hnone⟩)

theorem slabRule_filled : SlabRule InRange Filled where
  empty {info slab} hslots hnalloc := by
    have hnone : ∀ slot, slot ∉ info.slots := by simp [hslots]
    refine ⟨hnalloc, by simp, by simp, by simp, by simp [hslots], ?_, ?_⟩
    · exact fun slot hslot => absurd hslot (hnone slot)
    · exact fun slot hslot => absurd hslot (hnone slot)
  congr {info info' slab calls} hcid hslots hnalloc h := by
    refine ⟨hnalloc.trans h.nalloc_eq, h.items, h.inRange, fun call hcall => ?_, ?_, ?_, ?_⟩
    · exact holdsSeries_congr hcid hslots (h.holds call hcall)
    · exact hslots ▸ h.distinct
    · exact hslots ▸ h.first
    · exact hslots ▸ h.last
  put {info slab calls call m tree tree' slots} hclass hr h hstep := by
    have hmem : ∀ {call'}, call' ∈ calls ++ [call] → call' ∈ calls ∨ call' = call := by
      simp
    -- A slot of the series of the call is found if there is one.
    have hnew : (∀ old ∈ info.slots, ¬ old.Matches call.sourceId call.metricId) →
        slotCalls (newSlot call) calls = [] := by
      intro hnone
      refine filter_eq_nil_iff.2 fun call' hcall' hmatch => ?_
      obtain ⟨-, old, hold, hold'⟩ := h.holds call' hcall'
      obtain ⟨hs, hm⟩ := of_decide_eq_true hmatch
      exact hnone old hold ⟨hold'.1.trans hs.symm, hold'.2.trans hm.symm⟩
    refine ⟨?_, fun k call' hk => ?_, fun call' hcall' => ?_, fun call' hcall' => ?_,
      nodup_slotStep hstep h.distinct, fun slot hslot => ?_, fun slot hslot => ?_⟩
    · rw [length_append, length_singleton, h.nalloc_eq]
    · rcases Nat.lt_or_ge k calls.length with hlt | hge
      · rw [getElem?_append_left hlt] at hk
        rw [update_of_ne (h.nalloc_eq ▸ hlt.ne)]
        exact h.items k call' hk
      · rw [getElem?_append_right hge, getElem?_singleton] at hk
        split_ifs at hk with hlast
        obtain rfl := Option.some.inj hk
        obtain rfl : k = info.nalloc := by
          rw [h.nalloc_eq]
          omega
        rw [update_self]
        exact itemHolds_putItem _ _
    · rcases hmem hcall' with hold | rfl
      · exact h.inRange call' hold
      · exact hr
    · rcases hmem hcall' with hold | rfl
      · obtain ⟨hcid, hin⟩ := h.holds call' hold
        have hsame := hclass.resolve_left (ne_nil_of_mem hin.choose_spec.1)
        exact ⟨hsame.symm.trans hcid, exists_matches_of_slotStep hstep hin⟩
      · exact ⟨rfl, exists_matches_call hstep⟩
    · rcases slotStep_cases hstep h.distinct hslot with ⟨hold, hnot⟩ | ⟨hmatch, old, hold, rfl⟩ |
        ⟨rfl, hnone⟩
      · rw [slotCalls_append_of_not calls hnot]
        exact h.first slot hold
      · obtain ⟨call', hhead, hstart⟩ := h.first old hold
        rw [slotCalls_append_of_matches calls hmatch, head?_append]
        exact ⟨call', congrArg (Option.or · _) hhead, hstart⟩
      · rw [slotCalls_append_of_matches calls ⟨rfl, rfl⟩, hnew hnone]
        exact ⟨call, rfl, rfl⟩
    · rcases slotStep_cases hstep h.distinct hslot with ⟨hold, hnot⟩ | ⟨hmatch, old, hold, rfl⟩ |
        ⟨rfl, hnone⟩
      · rw [slotCalls_append_of_not calls hnot]
        exact h.last slot hold
      · rw [slotCalls_append_of_matches calls hmatch]
        exact ⟨call, getLast?_concat, rfl⟩
      · rw [slotCalls_append_of_matches calls ⟨rfl, rfl⟩]
        exact ⟨call, getLast?_concat, rfl⟩

/-! ## The slots of the calls -/

section Series

variable {info : SlabInfo} {slab : Slab} {calls : List PutCall} (h : Filled info slab calls)

include h

theorem Filled.exists_slot {call : PutCall} (hcall : call ∈ calls) :
    ∃ slot ∈ info.slots, info.getSinfoSourceID slot = call.sourceId ∧
      info.getSinfoMetricID slot = call.metricId := by
  obtain ⟨hcid, slot, hslot, hsource, hmetric⟩ := h.holds call hcall
  exact ⟨slot, hslot, getSinfo_of_fold (h.inRange call hcall) hcid hsource hmetric⟩

theorem Filled.length_slots_le : info.slots.length ≤ info.nalloc := by
  have hsub : (info.slots.map fun slot => (slot.sourceId, slot.metricId)) ⊆
      calls.map fun call => (foldSource call.sourceId, foldMetric call.metricId) := by
    intro ids hids
    obtain ⟨slot, hslot, rfl⟩ := mem_map.1 hids
    obtain ⟨call, hhead, -⟩ := h.first slot hslot
    obtain ⟨hcall, hmatch⟩ := mem_filter.1 (mem_of_head? hhead)
    obtain ⟨hsource, hmetric⟩ := of_decide_eq_true hmatch
    exact mem_map.2 ⟨call, hcall, Prod.ext hsource.symm hmetric.symm⟩
  have hle := (h.distinct.subperm hsub).length_le
  rwa [length_map, length_map, ← h.nalloc_eq] at hle

theorem Filled.exists_item {call : PutCall} (hcall : call ∈ calls) :
    ∃ j < info.nalloc, ItemHolds (slab j) call := by
  obtain ⟨j, hj⟩ := mem_iff_getElem?.1 hcall
  exact ⟨j, h.nalloc_eq ▸ (List.getElem?_eq_some_iff.1 hj).1, h.items j call hj⟩

theorem Filled.exists_end {slot : Slot} (hslot : slot ∈ info.slots) :
    ∃ call ∈ calls, call.sourceId = info.getSinfoSourceID slot ∧
      call.metricId = info.getSinfoMetricID slot ∧ call.endTime.toNat = slot.endTime := by
  obtain ⟨call, hlast, hend⟩ := h.last slot hslot
  obtain ⟨hcall, hmatch⟩ := mem_filter.1 (mem_of_getLast? hlast)
  obtain ⟨hsource, hmetric⟩ := of_decide_eq_true hmatch
  obtain ⟨hs, hm⟩ := getSinfo_of_fold (h.inRange call hcall) (h.holds call hcall).1 hsource hmetric
  exact ⟨call, hcall, hs.symm, hm.symm, hend.symm⟩

theorem Filled.nodup_series : (info.slots.map fun slot =>
    (info.getSinfoSourceID slot, info.getSinfoMetricID slot)).Nodup := by
  refine pairwise_map.2 ((pairwise_map.1 h.distinct).imp fun hne heq => hne ?_)
  obtain ⟨hsource, hmetric⟩ := Prod.mk.inj heq
  obtain ⟨hs, hm⟩ := getSinfo_inj hsource hmetric
  exact Prod.ext hs hm

end Series

end Traced

end PromTCS
