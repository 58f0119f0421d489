import PromTCS.Head.FlushDb
import PromTCS.Head.TreeMemSeries
import PromTCS.Lib.Watermark
import PromTCS.TreeSeries.Stocked

/-!
# The flush watermark

The slabs of a series are filled one after the other, wait in the full queue, are written to
disk slabs in batches and wait in the used queue until `flush_db` puts their chunks into the
database and sets `level_flush_time_` of the series to the end of its slot.

A batch is sorted by the ids of its slabs, a batch that finds no room goes back to the end of the
queue, and the last slab of a batch may be dropped. As long as none of this changes the order of
the slabs of a series, the queues are a pipeline that is drained in the order of time.
-/

namespace PromTCS

open List Function FlushHead Place

structure FlushTrace where
  head : FlushHead
  ledger : List Stored

namespace FlushTrace

open TreeSeries Traced

inductive Op
  | conPutKV (call : PutCall)
  | optBatchWriteLazyFlush
  | flushDb (full : ℕ → Bool)

abbrev store (t : FlushTrace) : TreeSeries := t.head.store

def traced (t : FlushTrace) : Traced := ⟨t.head.store, t.ledger⟩

variable (cfg : Setting)

def step (t : FlushTrace) : Op → Except Fault FlushTrace
  | .conPutKV call => (t.head.store.conPutKV cfg call).map fun p =>
    { head := { t.head with store := p.2 }
      ledger := (t.traced.record call p).ledger }
  | .optBatchWriteLazyFlush => (t.head.store.optBatchWriteLazyFlush cfg).map fun p =>
    { head := { t.head with store := p.2 }
      ledger := if p.1 then t.traced.relocateAll cfg else t.ledger }
  | .flushDb full => (t.head.flushDb cfg full).map fun head => { t with head := head }

def init (mslab dslab : ℕ → Slab) (levelFlushTime : ℕ × ℕ → Option ℤ) :
    FlushTrace where
  head := (Readers.init cfg mslab dslab levelFlushTime).head
  ledger := []

def InDb (db : List (Key × List Item)) (call : PutCall) : Prop :=
  ∃ put ∈ db, put.1.sourceId = call.sourceId ∧ put.1.metricId = call.metricId ∧
    ∃ item ∈ put.2, ItemHolds item call

def Covered (t : FlushTrace) : Prop :=
  ∀ e ∈ t.ledger, ∀ l, t.head.levelFlushTime (e.call.sourceId, e.call.metricId) = some l →
    e.call.endTime.toInt ≤ l → InDb t.head.db e.call

/-- No watermark of `t` is above that of `t'`. -/
def Rises (t t' : FlushTrace) : Prop :=
  ∀ series l l', t.head.levelFlushTime series = some l →
    t'.head.levelFlushTime series = some l' → l ≤ l'

def Disjoint (s : TreeSeries) (m m' : ℕ) : Prop :=
  ∀ a ∈ (s.mstable m).slots, ∀ b ∈ (s.mstable m').slots,
    ¬ ((s.mstable m).getSinfoSourceID a = (s.mstable m').getSinfoSourceID b ∧
      (s.mstable m).getSinfoMetricID a = (s.mstable m').getSinfoMetricID b)

def BatchInOrder (s : TreeSeries) : Prop :=
  s.skipsBatch cfg = false →
    if s.lacksDisk cfg then
      ∀ m ∈ s.batchFull cfg, ∀ m' ∈ s.fullMsinfoq.drop cfg.writeBatchSize, Disjoint s m m'
    else keepsLast (sortBySlabId (s.batchFull cfg)) = true ∧
      (s.batchFull cfg).Pairwise fun m m' => m < m' ∨ Disjoint s m m'

def ReadInOrder (s : TreeSeries) : Prop :=
  s.skipsMigration cfg = false → isSeq (s.migrated cfg) = true →
    ∀ i < (s.migrated cfg).length, (s.migrated cfg).getD i 0 = (s.migrated cfg).headD 0 + i

def Allowed (t : FlushTrace) : Op → Prop
  | .conPutKV call => t.traced.Increasing call ∧ InRange call ∧ call.endTime.toNat < 2 ^ 63 ∧
      encodeValueHeader call.sourceId call.metricId <+: call.value
  | .optBatchWriteLazyFlush => BatchInOrder cfg t.head.store
  | .flushDb _ => ReadInOrder cfg t.head.store

instance (s : TreeSeries) (m m' : ℕ) : Decidable (Disjoint s m m') :=
  inferInstanceAs (Decidable (∀ a ∈ (s.mstable m).slots, ∀ b ∈ (s.mstable m').slots, ¬ (_ ∧ _)))

instance (cfg : Setting) (s : TreeSeries) : Decidable (BatchInOrder cfg s) := by
  unfold BatchInOrder
  infer_instance

instance (cfg : Setting) (s : TreeSeries) : Decidable (ReadInOrder cfg s) := by
  unfold ReadInOrder
  infer_instance

instance (cfg : Setting) (t : FlushTrace) : (op : Op) → Decidable (t.Allowed cfg op)
  | .conPutKV call => inferInstanceAs (Decidable (t.traced.Increasing call ∧ InRange call ∧
      call.endTime.toNat < 2 ^ 63 ∧ encodeValueHeader call.sourceId call.metricId <+: call.value))
  | .optBatchWriteLazyFlush => inferInstanceAs (Decidable (BatchInOrder cfg t.head.store))
  | .flushDb _ => inferInstanceAs (Decidable (ReadInOrder cfg t.head.store))

/-! ## The queues as a pipeline -/

def seriesOf (call : PutCall) : ℕ × ℕ := (call.sourceId, call.metricId)

def endOf (call : PutCall) : ℤ := call.endTime.toInt

def queue (s : TreeSeries) : List Place :=
  s.usedDsinfoq.map .disk ++ s.fullMsinfoq.map .mem

def pipeline (ledger : List Stored) (slabOf : ClassId → Option ℕ) (queue : List Place)
    (db : List (Key × List Item)) (levelFlushTime : ℕ × ℕ → Option ℤ) :
    Pipeline PutCall (ℕ × ℕ) Place ℤ where
  Item call := ∃ e ∈ ledger, e.call = call
  At call p := ∃ e ∈ ledger, e.call = call ∧ e.slab = some p
  queue := queue
  Open p := ∃ c m, slabOf c = some m ∧ p = .mem m
  Done := InDb db
  mark := levelFlushTime

section Pipeline

variable (ledger : List Stored) (slabOf : ClassId → Option ℕ) (queue : List Place)
  (db : List (Key × List Item)) (levelFlushTime : ℕ × ℕ → Option ℤ)

theorem pipeline_append (call : PutCall) (p : Place) :
    pipeline (ledger ++ [⟨call, some p⟩]) slabOf queue db levelFlushTime =
      (pipeline ledger slabOf queue db levelFlushTime).put call p := by
  ext call' <;>
    simp only [pipeline, Pipeline.put, mem_append, mem_singleton, or_and_right,
      exists_or, exists_eq_left, Option.some.injEq, eq_comm]

theorem pipeline_update_some {c : ClassId} (hc : slabOf c = none) (m : ℕ) :
    pipeline ledger (update slabOf c (some m)) queue db levelFlushTime =
      (pipeline ledger slabOf queue db levelFlushTime).opened (.mem m) := by
  refine Pipeline.ext rfl rfl rfl (funext fun p => propext ⟨?_, ?_⟩) rfl rfl
  · rintro ⟨c', m', hc', rfl⟩
    by_cases hcc : c' = c
    · rw [hcc, update_self, Option.some.injEq] at hc'
      exact Or.inr (congrArg mem hc'.symm)
    · rw [update_of_ne hcc] at hc'
      exact Or.inl ⟨c', m', hc', rfl⟩
  · rintro (⟨c', m', hc', rfl⟩ | rfl)
    · have hcc : c' ≠ c := by
        rintro rfl
        rw [hc] at hc'
        cases hc'
      exact ⟨c', m', (update_of_ne hcc _ _).trans hc', rfl⟩
    · exact ⟨c, m, update_self _ _ _, rfl⟩

theorem pipeline_update_none {c : ClassId} {m : ℕ} (hc : slabOf c = some m)
    (hone : ∀ c', slabOf c' = some m → c' = c) :
    pipeline ledger (update slabOf c none) (queue ++ [.mem m]) db levelFlushTime =
      (pipeline ledger slabOf queue db levelFlushTime).closed (.mem m) := by
  refine Pipeline.ext rfl rfl rfl (funext fun p => propext ⟨?_, ?_⟩) rfl rfl
  · rintro ⟨c', m', hc', rfl⟩
    by_cases hcc : c' = c
    · rw [hcc, update_self] at hc'
      cases hc'
    · rw [update_of_ne hcc] at hc'
      refine ⟨⟨c', m', hc', rfl⟩, fun heq => hcc (hone c' ?_)⟩
      rw [hc', mem.inj heq]
  · rintro ⟨⟨c', m', hc', rfl⟩, hne⟩
    have hcc : c' ≠ c := by
      rintro rfl
      exact hne (congrArg mem (Option.some.inj (hc'.symm.trans hc)))
    exact ⟨c', m', (update_of_ne hcc _ _).trans hc', rfl⟩

theorem pipeline_relocateAll (cfg : Setting) (t : Traced) (queue' : List Place) :
    pipeline (t.relocateAll cfg) slabOf queue' db levelFlushTime =
      (pipeline t.ledger slabOf queue db levelFlushTime).moved
        (relocate (t.store.batchEvicted cfg) (t.store.batchWritten cfg)) queue' := by
  refine Pipeline.ext (funext fun call => propext ?_) (funext fun call => funext fun p =>
    propext ⟨?_, ?_⟩) rfl rfl rfl rfl
  · simp only [pipeline, Pipeline.moved, relocateAll, mem_map, exists_exists_and_eq_and]
  · rintro ⟨e, he, rfl, hp⟩
    obtain ⟨e₀, he₀, rfl⟩ := mem_map.1 he
    obtain ⟨q, hq, hqp⟩ := Option.bind_eq_some_iff.1 hp
    exact ⟨q, ⟨e₀, he₀, rfl, hq⟩, hqp⟩
  · rintro ⟨q, ⟨e₀, he₀, rfl, hq⟩, hqp⟩
    exact ⟨_, mem_map.2 ⟨e₀, he₀, rfl⟩, rfl, Option.bind_eq_some_iff.2 ⟨q, hq, hqp⟩⟩

end Pipeline

def pending (t : FlushTrace) : Pipeline PutCall (ℕ × ℕ) Place ℤ :=
  pipeline t.ledger t.head.store.slabOf (queue t.head.store) t.head.db t.head.levelFlushTime

structure Watermarked (cfg : Setting) (t : FlushTrace) : Prop where
  stocked : t.traced.Stocked cfg
  inRange : ∀ e ∈ t.ledger, InRange e.call
  values : ∀ e ∈ t.ledger, e.call.endTime.toNat < 2 ^ 63 ∧
    encodeValueHeader e.call.sourceId e.call.metricId <+: e.call.value
  valid : t.pending.Valid seriesOf endOf 0

theorem Watermarked.covered {cfg : Setting} {t : FlushTrace} (h : t.Watermarked cfg) :
    t.Covered := fun e he _ hl hle => h.valid.done ⟨e, he, rfl⟩ hl hle

theorem watermarked_init (mslab dslab : ℕ → Slab)
    {levelFlushTime : ℕ × ℕ → Option ℤ}
    (hzero : ∀ series l, levelFlushTime series = some l → l = 0) :
    (init cfg mslab dslab levelFlushTime).Watermarked cfg where
  stocked := stocked_initStable cfg mslab dslab
  inRange e he := by cases he
  values e he := by cases he
  valid :=
    { item := by
        rintro i p ⟨e, he, -⟩
        cases he
      waiting := by
        rintro i ⟨e, he, -⟩
        cases he
      ordered := List.Pairwise.nil
      last := by
        rintro p hp
        cases hp
      above := by
        rintro i p ⟨e, he, -⟩
        cases he
      mark_le := fun series l hl => Or.inl (hzero series l hl).le }

variable {cfg : Setting} {t : FlushTrace}

theorem Watermarked.owned (h : t.Watermarked cfg) : t.store.Owned cfg :=
  h.stocked.indexed.owned

variable {s : TreeSeries} {m : ℕ} {call : PutCall} {h h' : FlushHead}

theorem notMem_full_of_current (h : s.Owned cfg) {c : ClassId} (hc : s.slabOf c = some m) :
    m ∉ s.fullMsinfoq ∧ ∀ d, (m, d) ∉ s.memEvictSinfoq := by
  have hone := h.memCount_le_one m
  have hocc := Places.occupants_pos hc
  unfold memCount at hone
  refine ⟨fun hm => ?_, fun d hd => ?_⟩
  · have hpos := count_pos_iff.2 hm
    omega
  · have hpos := count_pos_iff.2 (mem_map.2 ⟨_, hd, rfl⟩ :
      m ∈ s.memEvictSinfoq.map Prod.fst)
    omega

theorem Watermarked.answers (h : t.Watermarked cfg) {p : Place} (hp : t.pending.Waits p) :
    t.store.tiered.Answers p.toSum := by
  rcases hp with hp | ⟨c, m, hc, rfl⟩
  · rcases mem_append.1 hp with hp | hp
    · obtain ⟨d, hd, rfl⟩ := mem_map.1 hp
      exact Or.inl hd
    · obtain ⟨m, hm, rfl⟩ := mem_map.1 hp
      exact fun _ => h.owned.notMem_evict_of_full hm
  · exact (notMem_full_of_current h.owned hc).2

/-! ## Put -/

theorem Watermarked.currentSlab (h : t.Watermarked cfg) {c : ClassId} {s₁ : TreeSeries}
    (hcur : t.store.currentSlab c = some (m, s₁)) :
    Watermarked cfg ⟨{ t.head with store := s₁ }, t.ledger⟩ := by
  refine ⟨h.stocked.currentSlab hcur, h.inRange, h.values, ?_⟩
  have hvalid := h.valid
  obtain ⟨hframe, -⟩ := currentSlab_frame hcur
  have hqueue : queue s₁ = queue t.store := by
    rw [queue, hframe.used, hframe.full, queue]
  unfold pending at hvalid ⊢
  simp only [hqueue, slabOf_currentSlab hcur]
  rcases currentSlab_cases hcur with ⟨hc, -⟩ | ⟨hc, rest, hfree, -⟩ | ⟨hc, -, d, rest, hev, -⟩
  · have hself : t.store.slabOf c = some m := hc
    rw [← hself, update_eq_self]
    exact hvalid
  · rw [pipeline_update_some _ _ _ _ _ (show t.store.slabOf c = none from hc)]
    refine hvalid.opened ?_
    rintro call ⟨e, he, -, hp⟩
    obtain ⟨-, slot, hslot⟩ := h.stocked.indexed.placed e he _ hp
    have hempty := h.stocked.indexed.free m (show m ∈ t.store.freeMsinfoq from
      hfree ▸ mem_cons_self)
    exact absurd hempty (ne_nil_of_mem hslot.1)
  · rw [pipeline_update_some _ _ _ _ _ (show t.store.slabOf c = none from hc)]
    refine hvalid.opened ?_
    rintro call ⟨e, he, -, hp⟩
    exact (h.stocked.indexed.placed e he _ hp).1 d (show (m, d) ∈ t.store.memEvictSinfoq from
      hev ▸ mem_cons_self)

theorem toInt_lt_toInt {a b : Word} (hab : a < b) (hb : b.toNat < 2 ^ 63) :
    a.toInt < b.toInt := by
  have hlt : a.toNat < b.toNat := hab
  rw [BitVec.toInt_eq_toNat_of_lt (by omega), BitVec.toInt_eq_toNat_of_lt (by omega)]
  omega

theorem classOf_of_at {t : Traced} (h : t.Indexed cfg) {e : Stored} (he : e ∈ t.ledger) {p : Place}
    (hp : e.slab = some p) : e.call.cid = (t.store.sinfo p).cid := by
  obtain ⟨-, slot, -, hsource, hmetric, -⟩ := h.placed e he p hp
  rw [PutCall.cid, ← hsource, ← hmetric]
  exact classOf_getSinfo _ _

theorem Watermarked.put (h : t.Watermarked cfg) (hallowed : t.Allowed cfg (.conPutKV call))
    (hc : t.store.slabOf call.cid = some m) {slots : List Slot}
    {tree : MassTree} {txn : ℕ → ℤ} (hstocked : Stocked cfg ⟨t.store.afterPut call m slots tree
      txn, t.ledger ++ [⟨call, some (.mem m)⟩]⟩) :
    Watermarked cfg ⟨{ t.head with store := t.store.afterPut call m slots tree txn },
      t.ledger ++ [⟨call, some (.mem m)⟩]⟩ := by
  obtain ⟨hinc, hr, hend, hvalue⟩ := hallowed
  refine ⟨hstocked, fun e he => ?_, fun e he => ?_, ?_⟩
  · rcases mem_append.1 he with he | he
    · exact h.inRange e he
    · exact mem_singleton.1 he ▸ hr
  · rcases mem_append.1 he with he | he
    · exact h.values e he
    · exact mem_singleton.1 he ▸ ⟨hend, hvalue⟩
  have hqueue : mem m ∉ queue t.store := by
    intro hm
    rcases mem_append.1 hm with hm | hm
    · obtain ⟨d, -, heq⟩ := mem_map.1 hm
      cases heq
    · obtain ⟨m', hm', heq⟩ := mem_map.1 hm
      obtain rfl := mem.inj heq
      exact (notMem_full_of_current h.owned hc).1 hm'
  have hput : (t.pending.put call (.mem m)).Valid seriesOf endOf 0 := by
    refine h.valid.put ⟨_, m, hc, rfl⟩ hqueue ?_ ?_
    · have hpos := toInt_lt_toInt hinc.1 hend
      have hstart : call.startTime.toNat < 2 ^ 63 := Nat.lt_trans hinc.1 hend
      rw [BitVec.toInt_eq_toNat_of_lt (by omega)] at hpos
      exact lt_of_le_of_lt (Int.natCast_nonneg _) hpos
    · rintro call' ⟨e, he, rfl⟩ hseries
      obtain ⟨hsource, hmetric⟩ := Prod.mk.inj hseries
      exact toInt_lt_toInt (Nat.lt_trans (hinc.2 e he hsource hmetric) hinc.1) hend
  unfold pending
  simp only [slabOf_afterPut]
  split_ifs with hfull
  · have hqueue' : queue (t.store.afterPut call m slots tree txn) =
        queue t.store ++ [.mem m] := by
      simp only [queue, afterPut, hfull, if_true, map_append, append_assoc,
        map_cons, map_nil]
    have hone := h.owned.memCount_le_one m
    unfold memCount at hone
    rw [hqueue', pipeline_update_none _ _ _ _ _ hc fun c' hc' =>
      Places.eq_of_occupants_le_one (by omega) hc' hc, pipeline_append]
    refine hput.closed ⟨_, m, hc, rfl⟩ ?_
    -- Another open slab is of another class.
    rintro q' ⟨c', m', hc', rfl⟩ hne i j hi hj hij
    have hm' : m' ≠ m := fun heq => hne (congrArg mem heq)
    change (pipeline t.ledger _ _ _ _ |>.put call (.mem m)).At _ _ at hi
    change (pipeline t.ledger _ _ _ _ |>.put call (.mem m)).At _ _ at hj
    rw [← pipeline_append] at hi hj
    obtain ⟨e, he, rfl, hp⟩ := hi
    obtain ⟨e', he', rfl, hp'⟩ := hj
    have hold : e' ∈ t.ledger := by
      rcases mem_append.1 he' with he' | he'
      · exact he'
      · obtain rfl := mem_singleton.1 he'
        exact absurd (Option.some.inj hp').symm hne
    obtain ⟨-, slot, hslot⟩ := h.stocked.indexed.placed e' hold _ hp'
    have hcid : (t.store.mstable m').cid = c' :=
      (h.stocked.indexed.current c' m' hc').resolve_left (ne_nil_of_mem hslot.1)
    have hclass := classOf_of_at hstocked.indexed he hp
    have hself : ((t.store.afterPut call m slots tree txn).mstable m).cid = call.cid := by
      simp only [afterPut, update_self]
    have hclass' : e'.call.cid = c' := (classOf_of_at h.stocked.indexed hold hp').trans hcid
    obtain ⟨hsource, hmetric⟩ := Prod.mk.inj hij
    have hsame : e.call.cid = e'.call.cid := congrArg₂ classOf hsource hmetric
    rw [← hclass', ← hsame, hclass.trans hself, hc] at hc'
    exact absurd (Option.some.inj hc').symm hm'
  · have hqueue' : queue (t.store.afterPut call m slots tree txn) = queue t.store := by
      simp only [queue, afterPut, hfull, if_false]
    rw [hqueue', update_eq_self, pipeline_append]
    exact hput

theorem Watermarked.conPutKV (h : t.Watermarked cfg) (hallowed : t.Allowed cfg (.conPutKV call))
    {sid : Option ℕ} (hput : t.store.conPutKV cfg call = .ok (sid, s)) :
    Watermarked cfg ⟨{ t.head with store := s }, (t.traced.record call (sid, s)).ledger⟩ := by
  have hstocked := h.stocked.conPutKV hallowed.1 hallowed.2.1 hput
  rcases conPutKV_cases hput with ⟨rfl, rfl⟩ | ⟨m, s₁, rfl, hcur, hslab⟩
  · exact h
  · obtain ⟨-, -, slots, tree, txn, -, rfl⟩ := putInSlab_eq_ok hslab
    have hc := slabOf_currentSlab_self hcur
    exact (h.currentSlab hcur).put hallowed hc hstocked

/-! ## Batch write -/

theorem Disjoint.symm {m' : ℕ} (h : Disjoint s m m') : Disjoint s m' m :=
  fun b hb a ha hids => h a ha b hb ⟨hids.1.symm, hids.2.symm⟩

theorem Watermarked.earlier_of_disjoint (h : t.Watermarked cfg) {m' : ℕ}
    (hdis : Disjoint t.store m m') : t.pending.Earlier seriesOf endOf (.mem m) (.mem m') := by
  rintro i j ⟨e, he, rfl, hp⟩ ⟨e', he', rfl, hp'⟩ hij
  obtain ⟨-, slot, hin, hsource, hmetric, -⟩ := h.stocked.indexed.placed e he _ hp
  obtain ⟨-, slot', hin', hsource', hmetric', -⟩ := h.stocked.indexed.placed e' he' _ hp'
  obtain ⟨hs, hm⟩ := Prod.mk.inj hij
  exact absurd ⟨(hsource.trans hs).trans hsource'.symm, (hmetric.trans hm).trans hmetric'.symm⟩
    (hdis slot hin slot' hin')

theorem Watermarked.requeued (h : t.Watermarked cfg) {full : List ℕ}
    (hperm : full.Perm t.store.fullMsinfoq)
    (hordered : full.Pairwise fun m m' =>
      t.pending.Earlier seriesOf endOf (.mem m) (.mem m')) :
    (t.pending.requeued (t.store.usedDsinfoq.map .disk ++ full.map .mem)).Valid
      seriesOf endOf 0 := by
  obtain ⟨hused, -, hcross⟩ := pairwise_append.1 h.valid.ordered
  refine h.valid.requeued ((hperm.map _).append_left _)
    (pairwise_append.2 ⟨hused, pairwise_map.2 hordered, fun p hp q hq => ?_⟩)
  exact hcross p hp q ((hperm.map _).mem_iff.1 hq)

theorem Watermarked.full_ordered (h : t.Watermarked cfg) :
    (t.store.batchFull cfg ++ t.store.fullMsinfoq.drop cfg.writeBatchSize).Pairwise
      fun m m' => t.pending.Earlier seriesOf endOf (.mem m) (.mem m') := by
  rw [batchFull, take_append_drop]
  exact pairwise_map.1 (pairwise_append.1 h.valid.ordered).2.1

theorem Watermarked.pushBack (h : t.Watermarked cfg)
    (hdis : ∀ m ∈ t.store.batchFull cfg,
      ∀ m' ∈ t.store.fullMsinfoq.drop cfg.writeBatchSize, Disjoint t.store m m') :
    Watermarked cfg ⟨{ t.head with store := t.store.pushBack cfg }, t.ledger⟩ := by
  refine ⟨h.stocked.pushBack, h.inRange, h.values, ?_⟩
  obtain ⟨hbatch, hrest, -⟩ := pairwise_append.1 h.full_ordered
  refine h.requeued ?_ (pairwise_append.2 ⟨hrest, hbatch, fun m' hm' m hm =>
    h.earlier_of_disjoint (hdis m hm m' hm').symm⟩)
  conv_rhs => rw [← take_append_drop cfg.writeBatchSize t.store.fullMsinfoq]
  exact perm_append_comm

theorem Watermarked.sort_ordered (h : t.Watermarked cfg)
    (hsort : (t.store.batchFull cfg).Pairwise fun m m' =>
      m < m' ∨ Disjoint t.store m m') :
    (t.store.sortedFull cfg).Pairwise fun m m' =>
      t.pending.Earlier seriesOf endOf (.mem m) (.mem m') := by
  have hbatch := (pairwise_append.1 h.full_ordered).1
  -- Two slabs are in order one way or the other, whichever comes first in the queue.
  let Sorted (m m' : ℕ) : Prop := m < m' → t.pending.Earlier seriesOf endOf (.mem m) (.mem m')
  have hboth : (t.store.batchFull cfg).Pairwise fun m m' => Sorted m m' ∧ Sorted m' m := by
    refine (hbatch.and hsort).imp fun {m m'} hm => ⟨fun _ => hm.1, fun hlt => ?_⟩
    exact h.earlier_of_disjoint (hm.2.resolve_left hlt.asymm).symm
  have hall : ∀ m ∈ t.store.batchFull cfg, ∀ m' ∈ t.store.batchFull cfg,
      Sorted m m' := by
    intro m hm m' hm' hlt
    have hsymm : Std.Symm fun m m' => Sorted m m' ∧ Sorted m' m := ⟨fun _ _ hm => hm.symm⟩
    exact (hboth.forall hm hm' hlt.ne).1 hlt
  have hperm := sortBySlabId_perm (t.store.batchFull cfg)
  refine (sortBySlabId_sorted h.owned.nodup_batchFull).imp_of_mem fun {m m'} hm hm' hlt => ?_
  exact hall m (hperm.mem_iff.1 hm) m' (hperm.mem_iff.1 hm') hlt

section Batch

variable (hne : t.store.batchFull cfg ≠ [])
  (hlen : (t.store.batchFull cfg).length = (t.store.batchDisk cfg).length)

include hlen

theorem map_relocate_queue (howned : t.store.Owned cfg)
    (hlast : keepsLast (t.store.sortedFull cfg) = true) :
    ((t.store.usedDsinfoq ++ (t.store.batchWritten cfg).map Prod.snd).map disk ++
        (t.store.fullMsinfoq.drop cfg.writeBatchSize).map mem).map some =
      (t.store.usedDsinfoq.map disk ++ (t.store.sortedFull cfg ++
        t.store.fullMsinfoq.drop cfg.writeBatchSize).map mem).map
        (relocate (t.store.batchEvicted cfg) (t.store.batchWritten cfg)) := by
  have hfst : (t.store.batchWritten cfg).map Prod.fst =
      t.store.sortedFull cfg := by
    rw [map_fst_batchWritten hlen, numWritten, if_pos hlast, take_length]
  have hused : ∀ d ∈ t.store.usedDsinfoq,
      relocate (t.store.batchEvicted cfg) (t.store.batchWritten cfg) (.disk d) =
        some (.disk d) := by
    refine fun d hd => if_neg fun hev => ?_
    exact (howned.notMem_of_batchDisk (mem_append_right _ hev)).1 hd
  have hrest : ∀ m ∈ t.store.fullMsinfoq.drop cfg.writeBatchSize,
      relocate (t.store.batchEvicted cfg) (t.store.batchWritten cfg) (.mem m) =
        some (.mem m) := by
    refine fun m hm => relocate_of_notMem (t := t.traced) fun d hw => ?_
    have hone := howned.memCount_le_one m
    have hsplit := count_take_add_count_drop t.store.fullMsinfoq cfg.writeBatchSize m
    have hin := count_pos_iff.2 (mem_batchWritten hlen hw).1
    have hout := count_pos_iff.2 hm
    unfold memCount at hone
    rw [batchFull] at hin
    omega
  rw [← hfst]
  simp only [map_append, map_map, append_assoc]
  refine congrArg₂ (· ++ ·) ?_ (congrArg₂ (· ++ ·) ?_ ?_)
  · exact map_congr_left fun d hd => (hused d hd).symm
  · refine map_congr_left fun w hw => ?_
    exact (relocate_of_written (t := t.traced) hlen howned hw).symm
  · exact map_congr_left fun m hm => (hrest m hm).symm

include hne

theorem Watermarked.writeBatch (h : t.Watermarked cfg)
    (hlast : keepsLast (t.store.sortedFull cfg) = true)
    (hsort : (t.store.batchFull cfg).Pairwise fun m m' =>
      m < m' ∨ Disjoint t.store m m') :
    Watermarked cfg ⟨{ t.head with store := t.store.writeBatch cfg },
      t.traced.relocateAll cfg⟩ := by
  have hstocked : Stocked cfg ⟨t.store.writeBatch cfg, t.traced.relocateAll cfg⟩ :=
    Stocked.writeBatch (t := t.traced) hne hlen h.stocked
  refine ⟨hstocked, fun e he => ?_, fun e he => ?_, ?_⟩
  · obtain ⟨e₀, he₀, rfl⟩ := mem_map.1 he
    exact h.inRange e₀ he₀
  · obtain ⟨e₀, he₀, rfl⟩ := mem_map.1 he
    exact h.values e₀ he₀
  obtain ⟨-, hrest, hcross⟩ := pairwise_append.1 h.full_ordered
  have hperm := sortBySlabId_perm (t.store.batchFull cfg)
  have hfull : (t.store.sortedFull cfg ++
      t.store.fullMsinfoq.drop cfg.writeBatchSize).Perm t.store.fullMsinfoq := by
    refine (hperm.append_right _).trans (.of_eq ?_)
    rw [batchFull, take_append_drop]
  have hrequeued := h.requeued hfull
    (pairwise_append.2 ⟨h.sort_ordered hsort, hrest, fun m hm m' hm' =>
      hcross m (hperm.mem_iff.1 hm) m' hm'⟩)
  have hqueue : queue (t.store.writeBatch cfg) =
      (t.store.usedDsinfoq ++ (t.store.batchWritten cfg).map Prod.snd).map .disk ++
        (t.store.fullMsinfoq.drop cfg.writeBatchSize).map .mem := by
    rw [queue, writeBatch_eq hne hlen h.owned.nodup_batchDisk]
  have hslab := (writeBatch_frame (t := t.traced) hne hlen h.owned).2.1
  unfold pending
  simp only [hqueue]
  rw [show (t.store.writeBatch cfg).slabOf = t.store.slabOf from hslab,
    pipeline_relocateAll _ (t.store.usedDsinfoq.map .disk ++
      (t.store.sortedFull cfg ++
        t.store.fullMsinfoq.drop cfg.writeBatchSize).map .mem)]
  refine Pipeline.Valid.moved hrequeued (map_relocate_queue hlen h.owned hlast) ?_ ?_
  · rintro p ⟨c, m, hc, rfl⟩
    refine relocate_of_notMem (t := t.traced) fun d hw => ?_
    exact (notMem_full_of_current h.owned hc).1
      (mem_of_mem_take (mem_batchWritten hlen hw).1)
  · rintro i p q p' ⟨e, he, -, hp⟩ hq hpp' hqp'
    have hwaits : t.pending.Waits q :=
      hq.imp_left fun hq => ((hfull.map _).append_left _).mem_iff.1 hq
    exact relocate_inj hlen h.owned (h.stocked.indexed.placed e he p hp).1 (h.answers hwaits)
      hpp' hqp'

end Batch

/-! ## Flush -/

structure Flushes (info : SlabInfo) (slab : Slab) (slots : List Slot) (h h' : FlushHead) :
    Prop where
  old : ∀ put ∈ h.db, put ∈ h'.db
  new : ∀ slot ∈ slots, ∀ j < info.nalloc,
    headerIs (info.getSinfoSourceID slot) (info.getSinfoMetricID slot) (slab j) →
      ∃ put ∈ h'.db, put.1.sourceId = info.getSinfoSourceID slot ∧
        put.1.metricId = info.getSinfoMetricID slot ∧ slab j ∈ put.2
  mark : ∀ series, h'.levelFlushTime series = h.levelFlushTime series ∨
    ∃ slot ∈ slots, (info.getSinfoSourceID slot, info.getSinfoMetricID slot) = series ∧
      h'.levelFlushTime series = some (BitVec.ofNat 64 slot.endTime).toInt

theorem flushSlot_flushes {info : SlabInfo} {slab : Slab} {slot : Slot}
    (hok : flushSlot info slab h slot = .ok h') : Flushes info slab [slot] h h' := by
  unfold flushSlot at hok
  dsimp only at hok
  generalize hitems : ((List.range info.nalloc).map slab).filter
    (headerIs (info.getSinfoSourceID slot) (info.getSinfoMetricID slot)) = items at hok
  have hmem : ∀ j < info.nalloc, headerIs (info.getSinfoSourceID slot)
      (info.getSinfoMetricID slot) (slab j) → slab j ∈ items := by
    intro j hj hheader
    rw [← hitems]
    exact mem_filter.2 ⟨mem_map.2 ⟨j, mem_range.2 hj, rfl⟩, hheader⟩
  split_ifs at hok with hempty
  · cases hok
    refine ⟨fun _ h => h, fun s hs j hj hheader => ?_, fun _ => Or.inl rfl⟩
    obtain rfl := mem_singleton.1 hs
    have hin := hmem j hj hheader
    rw [List.isEmpty_iff.1 hempty] at hin
    cases hin
  · split at hok
    · cases hok
    · cases hok
      refine ⟨fun _ => mem_append_left _, fun s hs j hj hheader => ?_, fun series => ?_⟩
      · obtain rfl := mem_singleton.1 hs
        exact ⟨_, mem_append_right _ mem_cons_self, rfl, rfl, hmem j hj hheader⟩
      · by_cases hseries : series = (info.getSinfoSourceID slot, info.getSinfoMetricID slot)
        · exact Or.inr ⟨slot, mem_cons_self, hseries.symm, hseries ▸
            update_self _ _ _⟩
        · exact Or.inl (update_of_ne hseries _ _)

theorem flushSlots_flushes {info : SlabInfo} {slab : Slab} {slots : List Slot}
    (hok : slots.foldlM (flushSlot info slab) h = .ok h') :
    Flushes info slab slots h h' := by
  induction slots generalizing h with
  | nil =>
    cases hok
    exact ⟨fun _ h => h, fun _ hs => absurd hs not_mem_nil, fun _ => Or.inl rfl⟩
  | cons slot slots ih =>
    rw [foldlM_cons] at hok
    obtain ⟨h₁, hslot, hrest⟩ := Run.bind_eq_ok hok
    have hfirst := flushSlot_flushes hslot
    have hrest := ih hrest
    refine ⟨fun put hput => hrest.old put (hfirst.old put hput), fun s hs j hj hheader => ?_,
      fun series => ?_⟩
    · rcases mem_cons.1 hs with rfl | hs
      · obtain ⟨put, hput, hids⟩ := hfirst.new s mem_cons_self j hj hheader
        exact ⟨put, hrest.old put hput, hids⟩
      · exact hrest.new s hs j hj hheader
    · rcases hrest.mark series with heq | ⟨s, hs, hids⟩
      · rw [heq]
        refine (hfirst.mark series).imp_right ?_
        rintro ⟨s, hs, hids⟩
        exact ⟨s, mem_cons.2 (Or.inl (mem_singleton.1 hs)), hids⟩
      · exact Or.inr ⟨s, mem_cons_of_mem _ hs, hids⟩

theorem headerIs_of_itemHolds (hr : InRange call)
    (hvalue : encodeValueHeader call.sourceId call.metricId <+: call.value) {item : Item}
    (hitem : ItemHolds item call) : headerIs call.sourceId call.metricId item = true := by
  have hlen : (encodeValueHeader call.sourceId call.metricId).length ≤ chunkSize := by
    simp [encodeValueHeader, chunkSize]
  exact headerIs_of_header (hr.1.trans (by decide)) (hr.2.trans (by decide))
    ((prefix_take_iff.2 ⟨hvalue, hlen⟩).trans hitem.2)

theorem InDb.mono {db db' : List (Key × List Item)} (hsub : ∀ put ∈ db, put ∈ db')
    (h : InDb db call) : InDb db' call := by
  obtain ⟨put, hput, hrest⟩ := h
  exact ⟨put, hsub put hput, hrest⟩

section Slab

variable (hw : t.Watermarked cfg) {h h' : FlushHead} {d : ℕ} {slab : Option Slab}
  (htable : h.store.dstable = t.store.dstable)
  (hread : ∀ s, slab = some s → s = t.store.dslab d)
  (hok : h.flushSlab d slab = .ok h')

include hw htable hread hok

theorem inDb_of_flushSlab :
    (∀ put ∈ h.db, put ∈ h'.db) ∧
      ∀ e ∈ t.ledger, e.slab = some (.disk d) → InDb h'.db e.call := by
  cases slab with
  | none =>
    simp only [flushSlab, htable] at hok
    split_ifs at hok with hempty
    cases hok
    refine ⟨fun _ h => h, fun e he hp => ?_⟩
    obtain ⟨-, slot, hslot, -⟩ := hw.stocked.indexed.placed e he _ hp
    obtain ⟨j, hj, -⟩ := hw.stocked.items e he _ hp
    rcases hempty with hnil | hzero
    · exact absurd (List.isEmpty_iff.1 hnil) (ne_nil_of_mem hslot)
    · exact absurd hj (hzero ▸ Nat.not_lt_zero j)
  | some slab =>
    obtain rfl := hread slab rfl
    simp only [flushSlab, htable] at hok
    have hflush := flushSlots_flushes hok
    refine ⟨hflush.old, fun e he hp => ?_⟩
    obtain ⟨-, slot, hslot, hsource, hmetric, -⟩ := hw.stocked.indexed.placed e he _ hp
    obtain ⟨j, hj, hitem⟩ := hw.stocked.items e he _ hp
    have hheader := headerIs_of_itemHolds (hw.inRange e he) (hw.values e he).2 hitem
    obtain ⟨put, hput, hs, hm, hin⟩ := hflush.new slot hslot j hj (by
      rw [← hsource, ← hmetric] at hheader
      exact hheader)
    exact ⟨put, hput, hs.trans hsource, hm.trans hmetric, _, hin, hitem⟩

theorem mark_flushSlab (hlive : t.store.tiered.Answers (disk d).toSum)
    (series : ℕ × ℕ) :
    h'.levelFlushTime series = h.levelFlushTime series ∨
      ∃ e ∈ t.ledger, e.slab = some (.disk d) ∧ seriesOf e.call = series ∧
        h'.levelFlushTime series = some (endOf e.call) := by
  cases slab with
  | none =>
    simp only [flushSlab] at hok
    split_ifs at hok
    cases hok
    exact Or.inl rfl
  | some slab =>
    simp only [flushSlab, htable] at hok
    refine ((flushSlots_flushes hok).mark series).imp_right ?_
    rintro ⟨slot, hslot, hids, hmark⟩
    obtain ⟨e, he, hp, hs, hm, hend⟩ := hw.stocked.ends _ hlive slot hslot
    refine ⟨e, he, hp, (Prod.ext hs hm).trans hids, ?_⟩
    rw [hmark, ← hend, BitVec.ofNat_toNat, BitVec.setWidth_eq]
    rfl

end Slab

theorem Watermarked.flushSlabs (hw : t.Watermarked cfg) {isSeq : Bool}
    {arr : List (ℕ × Slab × SlabPtr)} {rest : List Place}
    (hok : flushSlabs isSeq arr h = .ok h')
    (htable : h.store.dstable = t.store.dstable)
    (hread : ∀ x ∈ arr, x.2.1 = t.store.dslab x.1)
    (hlive : ∀ x ∈ arr, t.store.tiered.Answers (disk x.1).toSum) (hvalid : (pipeline
      t.ledger t.store.slabOf (arr.map (fun x => .disk x.1) ++ rest) h.db
      h.levelFlushTime).Valid seriesOf endOf 0) :
    (pipeline t.ledger t.store.slabOf rest h'.db h'.levelFlushTime).Valid seriesOf endOf 0 ∧
      ∀ series l l', h.levelFlushTime series = some l → h'.levelFlushTime series = some l' →
        l ≤ l' := by
  induction arr generalizing h with
  | nil =>
    cases hok
    exact ⟨hvalid, fun series l l' hl hl' => (Option.some.inj (hl.symm.trans hl')).le⟩
  | cons x arr ih =>
    obtain ⟨d, slab, ptr⟩ := x
    obtain ⟨h₁, hslab, hok⟩ := Run.bind_eq_ok hok
    have hread₁ : ∀ s, (if ptr = .null then none else some slab) = some s →
        s = t.store.dslab d := by
      intro s hs
      split_ifs at hs
      exact (Option.some.inj hs).symm.trans (hread _ mem_cons_self)
    obtain ⟨hold, hnew⟩ := inDb_of_flushSlab hw htable hread₁ hslab
    have hmark := mark_flushSlab hw htable hread₁ hslab (hlive _ mem_cons_self)
    have hmark' : ∀ series, h₁.levelFlushTime series = h.levelFlushTime series ∨
        ∃ call, (∃ e ∈ t.ledger, e.call = call ∧ e.slab = some (.disk d)) ∧
          seriesOf call = series ∧ h₁.levelFlushTime series = some (endOf call) :=
      fun series => (hmark series).imp_right fun ⟨e, he, hp, hs⟩ =>
        ⟨e.call, ⟨e, he, rfl, hp⟩, hs⟩
    have hdrained : (pipeline t.ledger t.store.slabOf
        (arr.map (fun x => .disk x.1) ++ rest) h₁.db h₁.levelFlushTime).Valid seriesOf endOf 0 :=
      hvalid.drained rfl hmark' (fun _ => InDb.mono hold) (by
        rintro call ⟨e, he, rfl, hp⟩
        exact hnew e he hp)
    have hframe := flushSlab_frame hslab
    obtain ⟨hvalid', hle⟩ := ih (h := if isSeq then h₁ else
        { h₁ with pool := h₁.pool.freeBufSlab ptr }) hok
      (by split_ifs <;> exact (congrArg TreeSeries.dstable hframe.1).trans htable)
      (fun x hx => hread x (mem_cons_of_mem _ hx))
      (fun x hx => hlive x (mem_cons_of_mem _ hx))
      (by split_ifs <;> exact hdrained)
    refine ⟨hvalid', fun series l l' hl hl' => ?_⟩
    obtain ⟨l₁, hl₁⟩ : ∃ l₁, h₁.levelFlushTime series = some l₁ := by
      rcases hmark series with heq | ⟨e, -, -, -, heq⟩
      · exact ⟨l, heq.trans hl⟩
      · exact ⟨_, heq⟩
    exact (hvalid.mark_le_drained rfl hmark' hl hl₁).trans
      (hle series l₁ l' (by split_ifs <;> exact hl₁) hl')

def migrateArray (cfg : Setting) (s : TreeSeries) (ptrs : List SlabPtr) :
    List (ℕ × Slab × SlabPtr) :=
  (((s.migrated cfg).zip (s.diskRead (s.migrated cfg))).zip ptrs).map
    fun e => (e.1.1, e.1.2, e.2)

theorem map_fst_pairs (cfg : Setting) (s : TreeSeries) :
    ((s.migrated cfg).zip (s.diskRead (s.migrated cfg))).map Prod.fst = s.migrated cfg :=
  map_fst_zip (length_diskRead _ _).ge

theorem map_fst_migrateArray {ptrs : List SlabPtr} (hlen : ptrs.length = (s.migrated cfg).length) :
    (migrateArray cfg s ptrs).map Prod.fst = s.migrated cfg := by
  have hpairs := congrArg List.length (map_fst_pairs cfg s)
  rw [length_map] at hpairs
  have hzip := congrArg (List.map Prod.fst) (map_fst_zip (hpairs.trans hlen.symm).le)
  rw [map_map, map_fst_pairs] at hzip
  rw [migrateArray, map_map]
  exact hzip

theorem mem_migrateArray (horder : ReadInOrder cfg s) (hskip : s.skipsMigration cfg = false)
    {ptrs : List SlabPtr} {x : ℕ × Slab × SlabPtr} (hx : x ∈ migrateArray cfg s ptrs) :
    x.1 ∈ s.usedDsinfoq ∧ x.2.1 = s.dslab x.1 ∧ x.2.2 ∈ ptrs := by
  obtain ⟨e, he, rfl⟩ := mem_map.1 hx
  obtain ⟨hpair, hptr⟩ := of_mem_zip he
  have hin : e.1.1 ∈ s.migrated cfg :=
    map_fst_pairs cfg s ▸ mem_map.2 ⟨_, hpair, rfl⟩
  exact ⟨mem_of_mem_take hin, (diskRead_eq_iff s _).2 (horder hskip) s.dslab e.1 hpair, hptr⟩

theorem Watermarked.flushDb (h : t.Watermarked cfg) (horder : ReadInOrder cfg t.store)
    {full : ℕ → Bool} {head : FlushHead} (hok : t.head.flushDb cfg full = .ok head) :
    Watermarked cfg { t with head := head } ∧ t.Rises { t with head := head } := by
  obtain ⟨⟨res, store⟩, hmigrate, hok⟩ := Run.bind_eq_ok hok
  have hstocked := h.stocked.migrateReadLazyFlush hmigrate
  have hslab := (migrateReadLazyFlush_frame hmigrate).2.2.1
  rcases migrateReadLazyFlush_eq_ok hmigrate with ⟨-, rfl, rfl⟩ | ⟨hskip, rfl⟩
  · cases hok
    exact ⟨h, fun series l l' hl hl' => (Option.some.inj (hl.symm.trans hl')).le⟩
  rcases migrateReadLazyFlush_cases hmigrate with ⟨hnone, -⟩ | ⟨-, -, -, hstore⟩
  · cases hnone
  obtain ⟨⟨ptrs, pool⟩, hptrs, hok⟩ := Run.bind_eq_ok hok
  have hframe : head.store = store := (flushSlabs_frame hok).1
  have hlen := length_migrateRead hptrs
  rw [map_fst_pairs] at hlen
  have hplaces : (migrateArray cfg t.store ptrs).map (fun x => disk x.1) =
      (t.store.migrated cfg).map .disk := by
    rw [← map_fst_migrateArray hlen, map_map]
    rfl
  have hqueue : (t.store.migrated cfg).map .disk ++ queue store = queue t.store := by
    rw [queue, hstore, ← append_assoc, ← map_append, migrated, take_append_drop]
    rfl
  have hstart : (pipeline t.ledger t.store.slabOf
      ((migrateArray cfg t.store ptrs).map (fun x => disk x.1) ++
        queue store) t.head.db t.head.levelFlushTime).Valid seriesOf endOf 0 := by
    rw [hplaces, hqueue]
    exact h.valid
  obtain ⟨hvalid, hle⟩ := h.flushSlabs hok (by rw [hstore])
    (fun x hx => (mem_migrateArray horder hskip hx).2.1)
    (fun x hx => Or.inl (mem_migrateArray horder hskip hx).1) hstart
  refine ⟨⟨?_, h.inRange, h.values, ?_⟩, hle⟩
  · change Stocked cfg ⟨head.store, t.ledger⟩
    rw [hframe]
    exact hstocked
  · unfold pending
    simp only [hframe, hslab]
    exact hvalid

/-! ## Runs -/

theorem Watermarked.step (h : t.Watermarked cfg) {op : Op} (hallowed : t.Allowed cfg op)
    {t' : FlushTrace} (hok : t.step cfg op = .ok t') : t'.Watermarked cfg ∧ t.Rises t' := by
  have hsame : ∀ {t' : FlushTrace}, t'.head.levelFlushTime = t.head.levelFlushTime →
      t.Rises t' := by
    intro t' heq series l l' hl hl'
    exact (Option.some.inj (hl.symm.trans (heq ▸ hl'))).le
  cases op with
  | conPutKV call =>
    obtain ⟨⟨sid, s⟩, hput, rfl⟩ := Run.map_eq_ok hok
    exact ⟨h.conPutKV hallowed hput, hsame rfl⟩
  | optBatchWriteLazyFlush =>
    obtain ⟨⟨b, s⟩, hwrite, rfl⟩ := Run.map_eq_ok hok
    refine ⟨?_, hsame rfl⟩
    rcases optBatchWriteLazyFlush_cases hwrite with ⟨-, rfl, rfl⟩ | ⟨hskip, hlack, rfl, rfl⟩ |
      ⟨hskip, hlack, rfl, hne, hlen, rfl⟩
    · exact h
    · have hdis := hallowed hskip
      rw [if_pos hlack] at hdis
      exact h.pushBack hdis
    · have hbatch := hallowed hskip
      rw [hlack, if_neg Bool.false_ne_true] at hbatch
      exact h.writeBatch hne hlen hbatch.1 hbatch.2
  | flushDb full =>
    obtain ⟨head, hflush, rfl⟩ := Run.map_eq_ok hok
    exact h.flushDb hallowed hflush

/-- In every run of allowed steps every chunk up to the watermark of its series is in the
database, and no step lowers a watermark. -/
theorem flushWatermark_covers (cfg : Setting) (mslab dslab : ℕ → Slab)
    (levelFlushTime : ℕ × ℕ → Option ℤ)
    (hzero : ∀ series l, levelFlushTime series = some l → l = 0) (t : FlushTrace)
    (hrun : Run.Reaches (Allowed cfg) (step cfg) (init cfg mslab dslab levelFlushTime) t) :
    t.Covered ∧ ∀ op t', t.Allowed cfg op → t.step cfg op = .ok t' → t.Rises t' := by
  have h : t.Watermarked cfg := hrun.invariant (watermarked_init cfg mslab dslab hzero)
    fun _ _ _ ih hallowed hok => (ih.step hallowed hok).1
  exact ⟨h.covered, fun op t' hallowed hok => (h.step hallowed hok).2⟩

/-- The chunk of `samplePut`, with its header. -/
def headedPut (sourceId k : ℕ) : PutCall :=
  { samplePut sourceId k with value := encodeValueHeader sourceId 1 }

def headedPuts (sourceId k n : ℕ) : List Op :=
  (List.range' k n).map fun i => .conPutKV (headedPut sourceId i)

def sampleTrace : FlushTrace :=
  init sampleSetting (fun _ _ => ⟨0, []⟩) (fun _ _ => ⟨0, []⟩) fun _ => some 0

/-- Two slabs of a source are written, and the first is flushed. -/
theorem flushWatermark_covers_twoSlabs :
    ∃ t, Run.Reaches (Allowed sampleSetting) (step sampleSetting) sampleTrace t ∧
      t.head.levelFlushTime (1, 1) = some 31 ∧ t.Covered := by
  have hrun : (Run.exec (Allowed sampleSetting) (step sampleSetting) sampleTrace
      (headedPuts 1 0 32 ++ [.optBatchWriteLazyFlush, .flushDb fun _ => true])).map
      (fun t => t.head.levelFlushTime (1, 1)) = some (some 31) := by
    decide +kernel
  obtain ⟨t, hreach, hview⟩ := Run.exists_reaches_of_exec hrun
  exact ⟨t, hreach, hview, (flushWatermark_covers sampleSetting _ _ _
    (fun _ _ h => (Option.some.inj h).symm) t hreach).1⟩

def Fed (cfg : Setting) (t : FlushTrace) : Op → Prop
  | .conPutKV call => t.Allowed cfg (.conPutKV call)
  | _ => True

instance (cfg : Setting) (t : FlushTrace) : (op : Op) → Decidable (t.Fed cfg op)
  | .conPutKV call => inferInstanceAs (Decidable (t.Allowed cfg (.conPutKV call)))
  | .optBatchWriteLazyFlush => inferInstanceAs (Decidable True)
  | .flushDb _ => inferInstanceAs (Decidable True)

/-- Slabs 0, 2, 3 and 4 are of source 1. The batch of slabs 0 and 2 drops slab 2; when slab 3 has
been flushed the watermark is past the chunks of slab 2, which are not in the database. -/
theorem flushWatermark_lostSlab :
    ∃ t, Run.Reaches (Fed sampleSetting) (step sampleSetting) sampleTrace t ∧ ¬ t.Covered := by
  have hrun : (Run.exec (Fed sampleSetting) (step sampleSetting) sampleTrace
      (headedPuts 1 0 16 ++ headedPuts 2 0 1 ++ headedPuts 1 16 16 ++ [.optBatchWriteLazyFlush] ++
        headedPuts 1 32 32 ++ [.optBatchWriteLazyFlush, .flushDb fun _ => true,
          .flushDb fun _ => true])).map
      (fun t => (t.head.levelFlushTime (1, 1),
        t.ledger.any (fun e => e.call.sourceId == 1 && e.call.metricId == 1 &&
          decide (e.call.startTime.toNat = 32) && decide (e.call.endTime.toInt ≤ 95)),
        t.head.db.all fun put => put.2.all fun item =>
          decide (put.1.sourceId = 1 → item.timestamp ≠ 32))) = some (some 95, true, true) := by
    decide +kernel
  obtain ⟨t, hreach, hview⟩ := Run.exists_reaches_of_exec hrun
  obtain ⟨hmark, hview⟩ := Prod.mk.inj hview
  obtain ⟨hany, hdb⟩ := Prod.mk.inj hview
  refine ⟨t, hreach, fun hcovered => ?_⟩
  obtain ⟨e, he, hview⟩ := any_eq_true.1 hany
  simp only [Bool.and_eq_true, beq_iff_eq, decide_eq_true_eq] at hview
  obtain ⟨⟨⟨hsource, hmetric⟩, hstart⟩, hend⟩ := hview
  obtain ⟨put, hput, hs, -, item, hitem, hholds⟩ :=
    hcovered e he 95 (by rw [hsource, hmetric, hmark]) hend
  have hall := all_eq_true.1 (all_eq_true.1 hdb put hput) item hitem
  exact of_decide_eq_true hall (hs.trans hsource) (hholds.1.trans hstart)

end FlushTrace

end PromTCS
