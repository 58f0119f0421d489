import PromTCS.Base.Coding
import PromTCS.Head.TreeMemSeries
import PromTCS.TreeSeries.ReadBuffers

/-!
# flush_db

`flush_db` reads a batch of disk slabs and puts the items of every series in a slab into the
database, under the series and the start time of its slot. The series is then marked as flushed
up to the end time of the slot. The slabs are read with one sequential read or one by one into
buffers, which are given back slab by slab.
-/

namespace PromTCS

open List

/-- The part of `TreeHead` that `flush_db` reads and writes: the slab store and its read
buffers, the puts made into the database so far, and `level_flush_time_` of the series in the
forward index. -/
structure FlushHead where
  store : TreeSeries
  pool : BufferPool
  db : List (Key × List Item)
  levelFlushTime : ℕ × ℕ → Option ℤ

namespace FlushHead

/-- `DecodeItemChunkHeader(item, mid, sgid)` and the comparison with the ids of a series. -/
def headerIs (sgid mid : ℕ) (item : Item) : Bool :=
  (Coding.decodeFixed64BE (item.chunk.drop 3)).map BitVec.toNat == some sgid &&
    (Coding.decodeFixed16 (item.chunk.drop 1)).map BitVec.toNat == some mid

def flushSlot (info : SlabInfo) (slab : Slab) (h : FlushHead) (slot : Slot) :
    Except Fault FlushHead :=
  let sgid := info.getSinfoSourceID slot
  let mid := info.getSinfoMetricID slot
  let items := ((List.range info.nalloc).map slab).filter (headerIs sgid mid)
  if items.isEmpty then .ok h
  else
    match h.levelFlushTime (sgid, mid) with
    | none => .error .nullItem
    | some _ => .ok { h with
        db := h.db ++ [(info.startKey slot, items)]
        levelFlushTime := Function.update h.levelFlushTime (sgid, mid)
          (some (BitVec.ofNat 64 slot.endTime).toInt) }

def flushSlab (h : FlushHead) (d : ℕ) : Option Slab → Except Fault FlushHead
  | some slab => (h.store.dstable d).slots.foldlM (flushSlot (h.store.dstable d) slab) h
  | none =>
    let info := h.store.dstable d
    if info.slots.isEmpty ∨ info.nalloc = 0 then .ok h
    else if info.nalloc = 1 then .error .uninitialised
    else .error .nullItem

/-- The loop of `flush_db` over `migrate_array`. -/
def flushSlabs (isSeq : Bool) : List (ℕ × Slab × SlabPtr) → FlushHead → Except Fault FlushHead
  | [], h => .ok h
  | (d, slab, ptr) :: rest, h => do
    let h ← h.flushSlab d (if ptr = .null then none else some slab)
    flushSlabs isSeq rest
      (if isSeq then h else { h with pool := h.pool.freeBufSlab ptr })

/-- `SequentialDiskRead` or `BatchDiskRead`. A sequential read of fewer bytes throws, which ends
the thread of the flush. -/
def migrateRead (full : ℕ → Bool) (used : List ℕ) (q : BufferPool) :
    Except Fault (List SlabPtr × BufferPool) :=
  if TreeSeries.isSeq used then
    if full 0 then .ok ((List.range used.length).map .sequential, q) else .error .assertion
  else BufferPool.readSlabs full 0 (used.map .disk) q

/-- `flush_db()`, with the outcomes of the reads of the device. -/
def flushDb (cfg : Setting) (full : ℕ → Bool) (h : FlushHead) : Except Fault FlushHead := do
  match ← h.store.migrateReadLazyFlush cfg with
  | (none, _) => pure h
  | (some arr, store) =>
    let (ptrs, pool) ← migrateRead full (arr.map Prod.fst) h.pool
    flushSlabs (TreeSeries.isSeq (arr.map Prod.fst))
      ((arr.zip ptrs).map fun e => (e.1.1, e.1.2, e.2)) { h with store := store, pool := pool }

/-! ## Headers -/

theorem ofNat_div_eq_setWidth {w : ℕ} (n k : ℕ) (hk : k + 8 ≤ w) :
    BitVec.ofNat 8 (n / 2 ^ k) = (BitVec.ofNat w n >>> k).setWidth 8 := by
  apply BitVec.eq_of_toNat_eq
  have hpow : 2 ^ k * 2 ^ 8 ∣ 2 ^ w := pow_add 2 k 8 ▸ pow_dvd_pow 2 hk
  rw [BitVec.toNat_setWidth, BitVec.toNat_ushiftRight, BitVec.toNat_ofNat, BitVec.toNat_ofNat,
    Nat.shiftRight_eq_div_pow, ← Nat.mod_mul_right_div_self, ← Nat.mod_mul_right_div_self,
    Nat.mod_mod_of_dvd _ hpow]

theorem encodeValueHeader_eq (sourceId metricId : ℕ) :
    encodeValueHeader sourceId metricId =
      1#8 :: (Coding.putFixed16 (BitVec.ofNat 16 metricId) ++
        Coding.putFixed64BE (BitVec.ofNat 64 sourceId)) := by
  have hsource := fun k hk => ofNat_div_eq_setWidth (w := 64) sourceId k hk
  have hmetric := fun k hk => ofNat_div_eq_setWidth (w := 16) metricId k hk
  simp only [Coding.putFixed16, Coding.putFixed64BE, ← hsource 56 (by omega),
    ← hsource 48 (by omega), ← hsource 40 (by omega), ← hsource 32 (by omega),
    ← hsource 24 (by omega), ← hsource 16 (by omega), ← hsource 8 (by omega),
    ← hmetric 8 (by omega), BitVec.setWidth_ofNat_of_le (show 8 ≤ 64 by omega),
    BitVec.setWidth_ofNat_of_le (show 8 ≤ 16 by omega)]
  simp [encodeValueHeader, range_succ]

theorem headerIs_of_header {sourceId metricId : ℕ} (hsource : sourceId < 2 ^ 64)
    (hmetric : metricId < 2 ^ 16) {item : Item}
    (h : encodeValueHeader sourceId metricId <+: item.chunk) :
    headerIs sourceId metricId item = true := by
  obtain ⟨rest, hrest⟩ := h
  rw [encodeValueHeader_eq, cons_append, append_assoc] at hrest
  have hdrop₁ : item.chunk.drop 1 = Coding.putFixed16 (BitVec.ofNat 16 metricId) ++
      (Coding.putFixed64BE (BitVec.ofNat 64 sourceId) ++ rest) := by
    rw [← hrest]
    rfl
  have hdrop₃ : item.chunk.drop 3 =
      Coding.putFixed64BE (BitVec.ofNat 64 sourceId) ++ rest := by
    rw [← hrest]
    rfl
  rw [headerIs, hdrop₁, hdrop₃, Coding.decodeFixed16_putFixed16,
    Coding.decodeFixed64BE_putFixed64BE, Option.map_some, Option.map_some, BitVec.toNat_ofNat,
    BitVec.toNat_ofNat, Nat.mod_eq_of_lt hmetric, Nat.mod_eq_of_lt hsource]
  simp only [BEq.rfl, Bool.and_self]

end FlushHead

/-! ## Readers -/

/-- The head and the iterators that are alive, each with its `slab_array_`. The number of reads
into a buffer that returned too few bytes is kept along. -/
structure Readers where
  head : FlushHead
  iterators : List (List (Place × SlabPtr))
  shortReads : ℕ

namespace Readers

open BufferPool

inductive Op
  | openIterator (sourceId metricId startTime endTime : ℕ) (full : ℕ → Bool)
  | closeIterator (i : ℕ)
  | flushDb (full : ℕ → Bool)
  | conPutKV (call : PutCall)
  | optBatchWriteLazyFlush

/-- `TreeSeriesIterator`, which keeps what `Scan` returns. -/
def openIterator (r : Readers) (sourceId metricId startTime endTime : ℕ) (full : ℕ → Bool) :
    Except Fault Readers := do
  let sinfoArr := r.head.store.scanMT sourceId metricId startTime endTime
  let read := sinfoArr.filter fun p => TreeSeries.slabId p ≠ 2 ^ 32 - 1
  let (ptrs, pool) ← readSlabs full 0 read r.head.pool
  pure {
    head := { r.head with pool := pool }
    iterators := r.iterators ++ [sinfoArr.zip ptrs]
    shortReads := r.shortReads + BufferPool.shortReads full 0 read }

/-- `~TreeSeriesIterator`. -/
def closeIterator (r : Readers) (i : ℕ) : Readers :=
  match r.iterators[i]? with
  | none => r
  | some arr =>
    { r with
      head := { r.head with pool := r.head.pool.release arr }
      iterators := r.iterators.eraseIdx i }

/-- The reads into a buffer of `flush_db` that return too few bytes. -/
def flushShortReads (cfg : Setting) (full : ℕ → Bool) (s : TreeSeries) : ℕ :=
  if s.skipsMigration cfg ∨ TreeSeries.isSeq (s.migrated cfg) then 0
  else BufferPool.shortReads full 0 ((s.migrated cfg).map .disk)

def step (cfg : Setting) (r : Readers) : Op → Except Fault Readers
  | .openIterator sourceId metricId startTime endTime full =>
    r.openIterator sourceId metricId startTime endTime full
  | .closeIterator i => .ok (r.closeIterator i)
  | .flushDb full => (r.head.flushDb cfg full).map fun head =>
    { r with
      head := head
      shortReads := r.shortReads + flushShortReads cfg full r.head.store }
  | .conPutKV call => (r.head.store.conPutKV cfg call).map fun p =>
    { r with head := { r.head with store := p.2 } }
  | .optBatchWriteLazyFlush => (r.head.store.optBatchWriteLazyFlush cfg).map fun p =>
    { r with head := { r.head with store := p.2 } }

def init (cfg : Setting) (mslab dslab : ℕ → Slab) (levelFlushTime : ℕ × ℕ → Option ℤ) :
    Readers where
  head := {
    store := TreeSeries.initStable cfg mslab dslab
    pool := BufferPool.init cfg
    db := []
    levelFlushTime := levelFlushTime }
  iterators := []
  shortReads := 0

end Readers

/-! ## What a flush does to the buffers -/

namespace FlushHead

variable {h h' : FlushHead}

theorem flushSlot_frame {info : SlabInfo} {slab : Slab} {slot : Slot}
    (hok : flushSlot info slab h slot = .ok h') : h'.store = h.store ∧ h'.pool = h.pool := by
  unfold flushSlot at hok
  dsimp only at hok
  split_ifs at hok
  · cases hok
    exact ⟨rfl, rfl⟩
  · split at hok
    · cases hok
    · cases hok
      exact ⟨rfl, rfl⟩

theorem flushSlab_frame {d : ℕ} {slab : Option Slab} (hok : h.flushSlab d slab = .ok h') :
    h'.store = h.store ∧ h'.pool = h.pool := by
  cases slab with
  | some slab =>
    refine Run.foldlM_invariant (P := fun h' => h'.store = h.store ∧ h'.pool = h.pool) hok
      ⟨rfl, rfl⟩ fun h₁ slot h₂ _ hframe hslot => ?_
    obtain ⟨hstore, hpool⟩ := flushSlot_frame hslot
    exact ⟨hstore.trans hframe.1, hpool.trans hframe.2⟩
  | none =>
    simp only [flushSlab] at hok
    split_ifs at hok
    cases hok
    exact ⟨rfl, rfl⟩

theorem flushSlabs_frame {isSeq : Bool} {l : List (ℕ × Slab × SlabPtr)}
    (hok : flushSlabs isSeq l h = .ok h') :
    h'.store = h.store ∧ h'.pool = if isSeq then h.pool else
      h.pool.release (l.map fun e => (Place.disk e.1, e.2.2)) := by
  induction l generalizing h with
  | nil =>
    cases hok
    exact ⟨rfl, (ite_self _).symm⟩
  | cons e l ih =>
    obtain ⟨d, slab, ptr⟩ := e
    obtain ⟨h₁, hslab, hrest⟩ := Run.bind_eq_ok hok
    obtain ⟨hstore, hpool⟩ := flushSlab_frame hslab
    obtain ⟨hstore', hpool'⟩ := ih hrest
    cases isSeq with
    | true => exact ⟨hstore'.trans hstore, hpool'.trans hpool⟩
    | false =>
      refine ⟨hstore'.trans hstore, hpool'.trans ?_⟩
      simp only [Bool.false_eq_true, if_false, hpool]
      rfl

theorem length_migrateRead {full : ℕ → Bool} {used : List ℕ} {q q' : BufferPool}
    {ptrs : List SlabPtr} (hread : migrateRead full used q = .ok (ptrs, q')) :
    ptrs.length = used.length := by
  unfold migrateRead at hread
  split_ifs at hread
  · cases hread
    simp
  · simpa using BufferPool.length_readSlabs hread

end FlushHead

namespace Readers

open BufferPool TreeSeries

variable {cfg : Setting} {r r' : Readers}

structure Conserved (cfg : Setting) (r : Readers) : Prop where
  tables : r.head.store.InTables cfg
  accounts : ∃ lost, lost.length = r.shortReads ∧
    r.head.pool.Accounts cfg (r.iterators.flatMap held ++ lost)

theorem Conserved.openIterator (h : r.Conserved cfg)
    {sourceId metricId startTime endTime : ℕ} {full : ℕ → Bool}
    (hok : r.openIterator sourceId metricId startTime endTime full = .ok r') :
    r'.Conserved cfg := by
  obtain ⟨⟨ptrs, pool⟩, hread, hok⟩ := Run.bind_eq_ok hok
  obtain ⟨lost, hlost, hacc⟩ := h.accounts
  rw [h.tables.filter_scanMT] at hread
  obtain ⟨lost', hlost', hacc'⟩ := hacc.readSlabs hread
  cases hok
  refine ⟨h.tables, lost' ++ lost, ?_, hacc'.congr ?_⟩
  · simp only [length_append, hlost, hlost', h.tables.filter_scanMT, Nat.add_comm]
  · refine perm_iff_count.2 fun ptr => ?_
    simp only [flatMap_append, flatMap_singleton, count_append]
    omega

theorem Conserved.closeIterator (h : r.Conserved cfg) (i : ℕ) :
    (r.closeIterator i).Conserved cfg := by
  unfold Readers.closeIterator
  cases hi : r.iterators[i]? with
  | none => exact h
  | some arr =>
    obtain ⟨lost, hlost, hacc⟩ := h.accounts
    obtain ⟨hlt, rfl⟩ := List.getElem?_eq_some_iff.1 hi
    refine ⟨h.tables, lost, hlost, Accounts.release (hacc.congr ?_)⟩
    have hperm := (getElem_cons_eraseIdx_perm hlt).symm.flatMap_right held
    rw [flatMap_cons] at hperm
    rw [← append_assoc]
    exact hperm.append_right lost

theorem Conserved.flushDb (h : r.Conserved cfg) {full : ℕ → Bool} {head : FlushHead}
    (hok : r.head.flushDb cfg full = .ok head) :
    Conserved cfg { r with
      head := head
      shortReads := r.shortReads + flushShortReads cfg full r.head.store } := by
  obtain ⟨lost, hlost, hacc⟩ := h.accounts
  obtain ⟨⟨res, store⟩, hmigrate, hok⟩ := Run.bind_eq_ok hok
  have htables := h.tables.migrateReadLazyFlush hmigrate
  unfold flushShortReads
  rcases migrateReadLazyFlush_eq_ok hmigrate with ⟨hskip, rfl, rfl⟩ | ⟨hskip, rfl⟩
  · cases hok
    rw [if_pos (Or.inl hskip)]
    exact ⟨h.tables, lost, hlost, hacc⟩
  · obtain ⟨⟨ptrs, pool⟩, hread, hok⟩ := Run.bind_eq_ok hok
    obtain ⟨hstore, hpool⟩ := FlushHead.flushSlabs_frame hok
    have hused : ((r.head.store.migrated cfg).zip
        (r.head.store.diskRead (r.head.store.migrated cfg))).map Prod.fst =
        r.head.store.migrated cfg :=
      map_fst_zip (length_diskRead _ _).ge
    rw [hused] at hread hpool
    unfold FlushHead.migrateRead at hread
    cases hseq : isSeq (r.head.store.migrated cfg) with
    | true =>
      simp only [hseq, if_true] at hread hpool
      split_ifs at hread
      cases hread
      rw [if_pos (Or.inr rfl)]
      exact ⟨hstore ▸ htables, lost, hlost, hpool ▸ hacc⟩
    | false =>
      simp only [hseq, Bool.false_eq_true, if_false] at hread hpool
      rw [if_neg (by simp [hskip])]
      obtain ⟨lost', hlost', hacc'⟩ := hacc.readSlabs hread
      refine ⟨hstore ▸ htables, lost' ++ lost, ?_, ?_⟩
      · rw [length_append, hlost, hlost', Nat.add_comm]
      · rw [hpool, map_map]
        refine Accounts.release (hacc'.congr ?_)
        have hrelease : ((fun e => (Place.disk e.1, e.2.2)) ∘
            fun e : (ℕ × Slab) × SlabPtr => (e.1.1, e.1.2, e.2)) =
            Prod.map (Place.disk ∘ Prod.fst) id := rfl
        rw [hrelease, ← zip_map_left, ← map_map, hused]
        refine perm_iff_count.2 fun ptr => ?_
        simp only [count_append]
        omega

theorem Conserved.step (h : r.Conserved cfg) {op : Op} (hok : r.step cfg op = .ok r') :
    r'.Conserved cfg := by
  cases op with
  | openIterator sourceId metricId startTime endTime full => exact h.openIterator hok
  | closeIterator i =>
    cases hok
    exact h.closeIterator i
  | flushDb full =>
    cases hflush : r.head.flushDb cfg full with
    | error e => simp [Readers.step, hflush, Except.map] at hok
    | ok head =>
      simp only [Readers.step, hflush, Except.map, Except.ok.injEq] at hok
      exact hok ▸ h.flushDb hflush
  | conPutKV call =>
    cases hput : r.head.store.conPutKV cfg call with
    | error e => simp [Readers.step, hput, Except.map] at hok
    | ok p =>
      simp only [Readers.step, hput, Except.map, Except.ok.injEq] at hok
      exact hok ▸ ⟨h.tables.conPutKV hput, h.accounts⟩
  | optBatchWriteLazyFlush =>
    cases hwrite : r.head.store.optBatchWriteLazyFlush cfg with
    | error e => simp [Readers.step, hwrite, Except.map] at hok
    | ok p =>
      simp only [Readers.step, hwrite, Except.map, Except.ok.injEq] at hok
      exact hok ▸ ⟨h.tables.optBatchWriteLazyFlush hwrite, h.accounts⟩

end Readers

end PromTCS
