import PromTCS.TreeSeries.Slab

/-!
# The slab store

`TreeSeries` keeps a table of memory slabs and a table of disk slabs. A memory
slab is taken from the free queue, or from the queue of slabs already written to
disk, becomes the current slab of a class, fills up, waits in the full queue, is
written to a disk slab and waits, paired with it, to be taken again. A disk slab
goes from free to used, is read for the migration to the database, and is then
ready to be overwritten.

Every function runs alone and every read and write of the device succeeds. An
assertion that fails, a null item, an access outside an array and the use of a
pointer that was never set end the run with a `Fault`. The counters are 32-bit
words. The buffers of the disk reads, the mutexes and the table `WriteDiskSlabInfo`
writes for a restart are left out.
-/

namespace PromTCS

open Function

/-- What ends a run; a loop that does not end is `diverges`. -/
inductive Fault
  | assertion
  | nullItem
  | outOfBounds
  | uninitialised
  | diverges
deriving DecidableEq, Repr

/-- The sizes fixed in the constructor, `uint32_t` each. -/
structure Setting where
  nmslab : ℕ
  ndslab : ℕ
  nbufSlab : ℕ
  nmslab_lt : nmslab < 2 ^ 32
  ndslab_lt : ndslab < 2 ^ 32
  nbufSlab_lt : nbufSlab < 2 ^ 32

theorem one_lt_uint32 : 1 < 2 ^ 32 := by decide

theorem eighteen_lt_uint32 : 18 < 2 ^ 32 := by decide

namespace Setting

def writeBatchSize (cfg : Setting) : ℕ := cfg.nmslab / 6

def migrateBatchSize (cfg : Setting) : ℕ := cfg.ndslab / 10

def validSid (cfg : Setting) (sid : ℕ) : Bool :=
  decide (sid < cfg.nmslab ∧ sid < cfg.ndslab)

/-- Three slabs are written at a time. -/
def threeSlabs : Setting :=
  ⟨18, 18, 1, eighteen_lt_uint32, eighteen_lt_uint32, one_lt_uint32⟩

end Setting

structure TreeSeries where
  mstable : ℕ → SlabInfo
  dstable : ℕ → SlabInfo
  mslab : ℕ → Slab
  dslab : ℕ → Slab
  ctable : ClassId → SlabClass
  massTree : MassTree
  freeMsinfoq : List ℕ
  fullMsinfoq : List ℕ
  memEvictSinfoq : List (ℕ × ℕ)
  freeDsinfoq : List ℕ
  usedDsinfoq : List ℕ
  diskEvictSinfoq : List ℕ
  nfreeMsinfoq : BitVec 32
  nusedMsinfoq : BitVec 32
  nfullMsinfoq : BitVec 32
  nMemEvictSinfo : BitVec 32
  nfreeDsinfoq : BitVec 32
  nusedDsinfoq : BitVec 32
  nDiskEvictSinfo : BitVec 32

namespace TreeSeries

/-- The constructor, with `InitCtable` and `InitStable`; the slabs hold whatever
the memory and the device held. -/
def initStable (cfg : Setting) (mslab dslab : ℕ → Slab) : TreeSeries where
  mstable := fun _ => SlabInfo.empty
  dstable := fun _ => SlabInfo.empty
  mslab := mslab
  dslab := dslab
  ctable := fun _ => { slabId := none, txn := fun _ => 0 }
  massTree := ∅
  freeMsinfoq := List.range cfg.nmslab
  fullMsinfoq := []
  memEvictSinfoq := []
  freeDsinfoq := List.range cfg.ndslab
  usedDsinfoq := []
  diskEvictSinfoq := []
  nfreeMsinfoq := BitVec.ofNat 32 cfg.nmslab
  nusedMsinfoq := 0
  nfullMsinfoq := 0
  nMemEvictSinfo := 0
  nfreeDsinfoq := BitVec.ofNat 32 cfg.ndslab
  nusedDsinfoq := 0
  nDiskEvictSinfo := 0

def setMem (s : TreeSeries) (m : ℕ) (info : SlabInfo) : TreeSeries :=
  { s with mstable := update s.mstable m info }

/-- `ctable[c].slab_id_ = sid`. -/
def setClassSlab (s : TreeSeries) (c : ClassId) (sid : Option ℕ) : TreeSeries :=
  { s with ctable := update s.ctable c { s.ctable c with slabId := sid } }

end TreeSeries

def SlabInfo.startKey (info : SlabInfo) (slot : Slot) : Key :=
  ⟨info.getSinfoSourceID slot, info.getSinfoMetricID slot, slot.startTime⟩

def SlabInfo.endKey (info : SlabInfo) (slot : Slot) : Key :=
  ⟨info.getSinfoSourceID slot, info.getSinfoMetricID slot, slot.endTime⟩

/-- `UpdateMT` of both keys of every slot. -/
def MassTree.updateSlots (t : MassTree) (info : SlabInfo) (p : Place) : MassTree :=
  info.slots.foldl
    (fun t slot => (t.updateMT (info.startKey slot) p).updateMT (info.endKey slot) p) t

/-- `RemoveMT` of both keys of every slot. -/
def MassTree.removeSlots (t : MassTree) (info : SlabInfo) : MassTree :=
  info.slots.foldl (fun t slot => (t.removeMT (info.startKey slot)).removeMT (info.endKey slot)) t

namespace TreeSeries

/-! ## ConPutKV -/

variable (s : TreeSeries)

/-- The part of `ConPutKV` for a class without a slab: one is taken from the free
queue, else from the slabs whose contents are on disk, whose keys then move to the
disk slab. -/
def takeSlab (c : ClassId) : Option (ℕ × TreeSeries) :=
  match s.freeMsinfoq with
  | m :: rest =>
    some (m,
      { s with
        freeMsinfoq := rest
        nusedMsinfoq := s.nusedMsinfoq + 1
        nfreeMsinfoq := s.nfreeMsinfoq - 1
        mstable := update s.mstable m { s.mstable m with free := false }
        ctable := update s.ctable c { s.ctable c with slabId := some m } })
  | [] =>
    match s.memEvictSinfoq with
    | [] => none
    | (m, d) :: rest =>
      some (m,
        { s with
          memEvictSinfoq := rest
          nMemEvictSinfo := s.nMemEvictSinfo - 1
          nusedMsinfoq := s.nusedMsinfoq + 1
          massTree := s.massTree.updateSlots (s.mstable m) (.disk d)
          mstable := update s.mstable m
            { (s.mstable m).freeSlab with free := false }
          ctable := update s.ctable c { s.ctable c with slabId := some m } })

/-- The slab `ConPutKV` writes to: the current one of the class or a new one. -/
def currentSlab (c : ClassId) : Option (ℕ × TreeSeries) :=
  match (s.ctable c).slabId with
  | some m => some (m, s)
  | none => s.takeSlab c

/-- `memcpy` of the value into an item. -/
def copyChunk (old value : List Byte) : List Byte :=
  let value := value.take chunkSize
  value ++ old.drop value.length

/-- `WritableItem(sid)` and the assignments to the item. -/
def writeItem (call : PutCall) (m : ℕ) : TreeSeries :=
  let n := (s.mstable m).nalloc
  { s with
    mslab := update s.mslab m (update (s.mslab m) n
      { timestamp := call.startTime.toNat
        chunk := copyChunk (s.mslab m n).chunk call.value })
    mstable := update s.mstable m { s.mstable m with nalloc := n + 1 } }

def findSlot (info : SlabInfo) (call : PutCall) : Option ℕ :=
  info.slots.findIdx? fun slot =>
    slot.sourceId == foldSource call.sourceId && slot.metricId == foldMetric call.metricId

def newSlot (call : PutCall) : Slot where
  sourceId := foldSource call.sourceId
  metricId := foldMetric call.metricId
  startTime := call.startTime.toNat
  endTime := call.endTime.toNat

/-- The branch of `ConPutKV` in which the series has slot `j` already. -/
def extendSlot (call : PutCall) (m j : ℕ) (slot : Slot) : TreeSeries :=
  let info := s.mstable m
  let slot' := { slot with endTime := call.endTime.toNat }
  { s with
    massTree := (s.massTree.removeMT ⟨call.sourceId, call.metricId, slot.endTime⟩).insertMT
      (info.endKey slot') (.mem m)
    mstable := update s.mstable m { info with slots := info.slots.set j slot' } }

/-- The branch of `ConPutKV` that adds a slot. -/
def addSlot (call : PutCall) (m : ℕ) : TreeSeries :=
  let info := s.mstable m
  let slot := newSlot call
  { s with
    massTree := (s.massTree.insertMT (info.startKey slot) (.mem m)).insertMT
      (info.endKey slot) (.mem m)
    mstable := update s.mstable m { info with slots := info.slots ++ [slot] }
    ctable := update s.ctable info.cid
      { s.ctable info.cid with
        txn := update (s.ctable info.cid).txn info.slots.length call.txn } }

def unfolds (info : SlabInfo) (call : PutCall) : Bool :=
  decide (info.getSinfoSourceID (newSlot call) = call.sourceId ∧
    info.getSinfoMetricID (newSlot call) = call.metricId)

def insertMemFullQueue (m : ℕ) : TreeSeries :=
  { s with
    fullMsinfoq := s.fullMsinfoq ++ [m]
    nfullMsinfoq := s.nfullMsinfoq + 1
    nusedMsinfoq := s.nusedMsinfoq - 1 }

def recordChunk (call : PutCall) (m : ℕ) : Except Fault TreeSeries :=
  match findSlot (s.mstable m) call with
  | some j =>
    match (s.mstable m).slots[j]? with
    | some slot => .ok (s.extendSlot call m j slot)
    | none => .error .outOfBounds
  | none =>
    if maxAllocItem ≤ (s.mstable m).slots.length then .error .outOfBounds
    else if unfolds (s.mstable m) call then .ok (s.addSlot call m)
    else .error .assertion

def queueIfFull (c : ClassId) (m : ℕ) : TreeSeries :=
  if (s.mstable m).slabFull then (s.insertMemFullQueue m).setClassSlab c none else s

variable (cfg : Setting) (s : TreeSeries)

/-- The part of `ConPutKV` after the slab is chosen. -/
def putInSlab (call : PutCall) (m : ℕ) :
    Except Fault TreeSeries :=
  let c := classOf call.sourceId call.metricId
  let s := s.setMem m { s.mstable m with cid := c }
  if !cfg.validSid m then .error .nullItem
  else if maxAllocItem ≤ (s.mstable m).nalloc then .error .outOfBounds
  else do
    let s ← (s.writeItem call m).recordChunk call m
    pure (s.queueIfFull c m)

/-- `ConPutKV(sid, source_id, metric_id, start_time, end_time, value, CHUNK_SIZE, txn)`,
with `sid` when it returns `true`. -/
def conPutKV (call : PutCall) :
    Except Fault (Option ℕ × TreeSeries) :=
  match s.currentSlab (classOf call.sourceId call.metricId) with
  | none => pure (none, s)
  | some (m, s') => do
    let s'' ← putInSlab cfg s' call m
    pure (some m, s'')

/-! ## OptBatchWriteLazyFlush -/

/-- The loop of `FindSinfoSubSequence`; `end` moves in every round, so `count` rounds
are enough. -/
def subSequenceLoop (q : List ℕ) (count : ℕ) : ℕ → ℕ → ℕ → List (ℕ × ℕ)
  | 0, _, _ => []
  | fuel + 1, start, end_ =>
    if start < count then
      if q.getD end_ 0 + 1 = q.getD (end_ + 1) 0 then
        if end_ + 1 = count then [(start, end_ + 1)]
        else subSequenceLoop q count fuel start (end_ + 1)
      else (start, end_) :: subSequenceLoop q count fuel (end_ + 1) (end_ + 1)
    else []

def findSinfoSubSequence (q : List ℕ) (count : ℕ) : List (ℕ × ℕ) :=
  if count = 0 then [(0, 0)] else subSequenceLoop q count count 0 0

def optWriteToSSD (s : TreeSeries) (msid dsid num : ℕ) : TreeSeries :=
  { s with
    dslab := fun i => if dsid ≤ i ∧ i < dsid + num then s.mslab (msid + (i - dsid)) else s.dslab i }

/-- `CopyInfo` and the two pushes that follow it. -/
def linkPair (s : TreeSeries) (m d : ℕ) : TreeSeries :=
  { s with
    dstable := update s.dstable d ((s.dstable d).copyInfo (s.mstable m))
    memEvictSinfoq := s.memEvictSinfoq ++ [(m, d)]
    usedDsinfoq := s.usedDsinfoq ++ [d] }

def writeRun (ms ds : List ℕ) (s : TreeSeries) (run : ℕ × ℕ) : TreeSeries :=
  let js := List.range' run.1 (run.2 + 1 - run.1)
  if run.2 - run.1 = ds.getD run.2 0 - ds.getD run.1 0 then
    js.foldl (fun s j => s.linkPair (ms.getD j 0) (ds.getD j 0))
      (s.optWriteToSSD (ms.getD run.1 0) (ds.getD run.1 0) (run.2 - run.1 + 1))
  else
    js.foldl (fun s j =>
      (s.linkPair (ms.getD j 0) (ds.getD j 0)).optWriteToSSD (ms.getD j 0) (ds.getD j 0) 1) s

def evictDisk (s : TreeSeries) (d : ℕ) : TreeSeries :=
  { s with
    massTree := s.massTree.removeSlots (s.dstable d)
    dstable := update s.dstable d (s.dstable d).freeSlab }

/-- `std::stable_sort` by `compareSlabInfo`. -/
def sortBySlabId (q : List ℕ) : List ℕ := q.insertionSort (· ≤ ·)

def batchFull : List ℕ :=
  s.fullMsinfoq.take cfg.writeBatchSize

abbrev sortedFull : List ℕ := sortBySlabId (s.batchFull cfg)

/-- `num`, the number of disk slabs a batch takes from the free queue. -/
def batchFree : ℕ :=
  min (s.batchFull cfg).length s.nfreeDsinfoq.toNat

def batchEvicted : List ℕ :=
  s.diskEvictSinfoq.take ((s.batchFull cfg).length - s.batchFree cfg)

def batchDisk : List ℕ :=
  s.freeDsinfoq.take (s.batchFree cfg) ++ s.batchEvicted cfg

/-- The part of `OptBatchWriteLazyFlush` that takes the slabs out of their queues. -/
def popBatch : TreeSeries :=
  let count := (s.batchFull cfg).length
  { s with
    fullMsinfoq := s.fullMsinfoq.drop cfg.writeBatchSize
    freeDsinfoq := s.freeDsinfoq.drop (s.batchFree cfg)
    nfreeDsinfoq := s.nfreeDsinfoq - BitVec.ofNat 32 (s.batchFree cfg)
    diskEvictSinfoq := s.diskEvictSinfoq.drop (count - s.batchFree cfg)
    nDiskEvictSinfo := s.nDiskEvictSinfo - BitVec.ofNat 32 (count - s.batchFree cfg) }

/-- The part of `OptBatchWriteLazyFlush` that writes the slabs. -/
def writeBatch : TreeSeries :=
  let count := (s.batchFull cfg).length
  let ms := sortBySlabId (s.batchFull cfg)
  let ds := sortBySlabId (s.batchDisk cfg)
  let s' := (findSinfoSubSequence ms (count - 1)).foldl (writeRun ms ds)
    ((s.batchEvicted cfg).foldl evictDisk (s.popBatch cfg))
  { s' with
    nfullMsinfoq := s'.nfullMsinfoq - BitVec.ofNat 32 count
    nusedDsinfoq := s'.nusedDsinfoq + BitVec.ofNat 32 count
    nMemEvictSinfo := s'.nMemEvictSinfo + BitVec.ofNat 32 count }

/-- The first two returns of `OptBatchWriteLazyFlush`. -/
def skipsBatch : Bool :=
  decide (s.nfullMsinfoq.toNat < cfg.writeBatchSize ∧
    (s.nfreeDsinfoq + s.nDiskEvictSinfo).toNat < cfg.writeBatchSize) || s.fullMsinfoq.isEmpty

def lacksDisk : Bool :=
  decide (s.freeDsinfoq.length + s.diskEvictSinfoq.length < (s.batchFull cfg).length)

def pushBack : TreeSeries :=
  { s with fullMsinfoq := s.fullMsinfoq.drop cfg.writeBatchSize ++ s.batchFull cfg }

/-- `OptBatchWriteLazyFlush()`. The array of popped slabs has `write_batch_size_`
entries, and one more `try_pop` than the queue holds leaves a pointer unset. -/
def optBatchWriteLazyFlush :
    Except Fault (Bool × TreeSeries) :=
  if s.skipsBatch cfg then pure (false, s)
  else if cfg.writeBatchSize = 0 then throw .outOfBounds
  else if s.lacksDisk cfg then pure (false, s.pushBack cfg)
  else if s.freeDsinfoq.length < s.batchFree cfg ∨
      s.diskEvictSinfoq.length < (s.batchFull cfg).length - s.batchFree cfg then
    throw .uninitialised
  else pure (true, s.writeBatch cfg)

/-! ## ForceFlush -/

/-- The slabs `ForceFlush` pushes. -/
def partialSlabs : List ℕ :=
  (List.range cfg.nmslab).filter fun m =>
    !(s.mstable m).free && (s.mstable m).nalloc != maxAllocItem

def forceFlush : TreeSeries :=
  (s.partialSlabs cfg).foldl insertMemFullQueue s

/-! ## MigrateReadLazyFlush -/

def isSeq (used : List ℕ) : Bool :=
  BitVec.ofNat 32 (used.getLastD 0) - BitVec.ofNat 32 (used.headD 0) + 1 ==
    BitVec.ofNat 32 used.length

/-- `SequentialDiskRead` or `BatchDiskRead`: the contents read for the slabs. -/
def diskRead (s : TreeSeries) (used : List ℕ) : List Slab :=
  if isSeq used then (List.range used.length).map fun i => s.dslab (used.headD 0 + i)
  else used.map s.dslab

/-- `MigrateReadLazyFlush(migrate_slab_array, is_seq)`, with the array when it
returns `true`. The array of popped slabs has `nbuf_slab_` entries. -/
def migrateReadLazyFlush :
    Except Fault (Option (List (ℕ × Slab)) × TreeSeries) :=
  if s.nusedDsinfoq.toNat < cfg.migrateBatchSize ∨ s.usedDsinfoq.length < cfg.nbufSlab then
    pure (none, s)
  else if cfg.nbufSlab = 0 then throw .outOfBounds
  else
    let used := s.usedDsinfoq.take cfg.nbufSlab
    pure (some (used.zip (s.diskRead used)),
      { s with
        usedDsinfoq := s.usedDsinfoq.drop cfg.nbufSlab
        nusedDsinfoq := s.nusedDsinfoq - BitVec.ofNat 32 used.length
        diskEvictSinfoq := s.diskEvictSinfoq ++ used
        nDiskEvictSinfo := s.nDiskEvictSinfo + BitVec.ofNat 32 used.length })

/-! ## Steps -/

/-- The operations on the store. -/
inductive Op
  | conPutKV (call : PutCall)
  | optBatchWriteLazyFlush
  | migrateReadLazyFlush
  | forceFlush

def step : Op → Except Fault TreeSeries
  | .conPutKV call => (s.conPutKV cfg call).map Prod.snd
  | .optBatchWriteLazyFlush => (s.optBatchWriteLazyFlush cfg).map Prod.snd
  | .migrateReadLazyFlush => (s.migrateReadLazyFlush cfg).map Prod.snd
  | .forceFlush => .ok (s.forceFlush cfg)

end TreeSeries

end PromTCS
