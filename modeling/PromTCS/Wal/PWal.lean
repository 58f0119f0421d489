import PromTCS.Head.Recover
import PromTCS.Head.TreeMemSeries
import PromTCS.Wal.CleanSampleLog

/-!
# The write-ahead log

Appenders collect new series and samples. A commit puts the series into the queue of the
series log and each sample into the queue of one of the sample logs, and then appends the
samples to the chunks of their series. The writer threads take series and samples from
the queues and write them to the log files, one record at a time. A chunk that is full is
handed to the slab store, and `clean_sample_log` removes samples from the files.

Here the threads take turns: a commit is its logging and the appends one by one, a writer
takes the items of one record, and cleaning runs alone. A record is given by the items that it
was written from; of the samples that are read from it at most the values are others, which
cleaning does not look at. Whether the file has grown large enough for the next one to be started is
left to the run. The numbers of the entries, the entries in the chunks, those handed over
and those written only say which sample is meant; the program does not have them.
-/

namespace PromTCS

open RewriteFiles Function

structure LogEntry where
  id : ℕ
  sample : TreeRefSample
deriving DecidableEq, Repr

def TreeRefSample.key (s : TreeRefSample) : ℕ × ℕ := (s.sgid.toNat, s.mid.toNat)

def LogEntry.key (e : LogEntry) : ℕ × ℕ := e.sample.key

/-- A `TreeHeadAppender`; `committing` are the samples that its commit has logged and not
yet appended. -/
structure TreeHeadAppender where
  series : List TreeRefSeries
  samples : List TreeRefSample
  committing : List LogEntry

/-- A `Wal` of samples. After the file that the writer has open is deleted, it is no
longer `linked`. -/
structure SampleWal where
  queue : List LogEntry
  files : Files LogEntry
  curLogSeq : ℕ
  linked : Bool

namespace SampleWal

/-- `AddRecord` of the log writer; a file without a name is written in vain. -/
def addRecord (w : SampleWal) (record : List LogEntry) : SampleWal :=
  if w.linked then
    { w with
      files := update w.files w.curLogSeq
        ((w.files w.curLogSeq).map (· ++ [record])) }
  else w

/-- `TryExtendLog()` for a file that has grown too large. -/
def extendLog (w : SampleWal) : SampleWal :=
  { w with
    files := update w.files (w.curLogSeq + 1)
      (some ((w.files (w.curLogSeq + 1)).getD []))
    curLogSeq := w.curLogSeq + 1
    linked := true }

end SampleWal

structure PWal where
  head : TreeHead
  appender : ℕ → TreeHeadAppender
  seriesQueue : List TreeRefSeries
  seriesLog : List (List TreeRefSeries)
  wal : ℕ → SampleWal
  mem : ℕ × ℕ → TreeMemSeries
  flushedTxn : ℕ × ℕ → ℤ
  nentries : ℕ
  chunk : ℕ × ℕ → List LogEntry
  handed : List LogEntry
  logged : List LogEntry

/-- `ITEM_NUM`, the most items of a record. -/
def itemNum : ℕ := 256

namespace PWal

def init : PWal where
  head := .init
  appender := fun _ => ⟨[], [], []⟩
  seriesQueue := []
  seriesLog := []
  wal := fun _ => ⟨[], update (fun _ => none) 0 (some []), 0, true⟩
  mem := fun key => .init key.1 key.2 0
  flushedTxn := fun _ => 0
  nentries := 0
  chunk := fun _ => []
  handed := []
  logged := []

/-- `source_id_` and `metric_id_` of the series that `get_or_create_by_thmap` returns: the
ids that it looks the labels up by. -/
def seriesIds (h : TreeHead) (lset : Labels) : Except Fault (ℕ × ℕ) := do
  let ((sgid, _), h) ← h.getOrCreateSourceId lset true
  let ((mid, _), _) ← h.getOrCreateMetricId lset true
  pure (sgid, mid)

/-- `add_fast(sgid, mid, t, v)` of an appender. -/
def addFast (p : PWal) (a : ℕ) (sgid : Word) (mid : BitVec 16) (t v : Word) : PWal :=
  match p.head.forwardIndex (sgid.toNat, mid.toNat) with
  | none => p
  | some _ =>
    let app := p.appender a
    { p with
      appender := update p.appender a
        { app with samples := app.samples ++ [⟨sgid, mid, t, v, 0⟩] } }

/-- The series as `add` keeps it for the log. -/
def refSeries (ids : ℕ × ℕ) (lset : Labels) : TreeRefSeries where
  sgid := BitVec.ofNat 64 ids.1
  mid := BitVec.ofNat 16 ids.2
  lset := lset
  lsetPtr := none
  flushedTxn := 0
  logCleanTxn := 0

/-- `add(lset, t, v, sgid, mid, epoch)` of an appender. -/
def add (p : PWal) (a : ℕ) (lset : Labels) (t v : Word) : Except Fault PWal := do
  let ids ← seriesIds p.head lset
  let ((_, new), head) ← p.head.getOrCreateByThmap lset
  let app := p.appender a
  let app := if new then { app with series := app.series ++ [refSeries ids lset] } else app
  let p := { p with head := head, appender := update p.appender a app }
  pure (p.addFast a (BitVec.ofNat 64 ids.1) (BitVec.ofNat 16 ids.2) t v)

def entries (n : ℕ) (samples : List TreeRefSample) : List LogEntry :=
  samples.mapIdx fun i s => ⟨n + i, s⟩

variable (walNum : ℕ) (p : PWal)

/-- `log()`: the first part of `commit`. -/
def log (a : ℕ) : Except Fault PWal :=
  let app := p.appender a
  let new := entries p.nentries app.samples
  -- the last commit of the appender has returned
  if !app.committing.isEmpty then throw .assertion
  else pure
    { p with
      appender := update p.appender a ⟨[], [], new⟩
      seriesQueue := p.seriesQueue ++ app.series
      wal := fun i =>
        { p.wal i with
          queue := (p.wal i).queue ++ new.filter fun e => e.key.2 % walNum = i }
      nentries := p.nentries + new.length }

/-- One round of the loop of `commit`. The chunk that `append` puts ends with the sample
itself if that fits exactly, and before it otherwise. -/
def append (p : PWal) (a : ℕ) : Except Fault PWal :=
  let app := p.appender a
  match app.committing with
  | [] => throw .assertion
  | e :: rest =>
    let p := { p with
      appender := update p.appender a { app with committing := rest } }
    match p.head.forwardIndex e.key with
    | none => pure p
    | some _ =>
      let m := p.mem e.key
      let (m', put) := m.append e.sample.t e.sample.v
      let p := { p with mem := update p.mem e.key m' }
      let now := p.chunk e.key
      if put.isNone then
        pure { p with chunk := update p.chunk e.key (now ++ [e]) }
      -- every fifth chunk waits for the log
      else if m.chunkNum % 5 = 0 ∧ p.flushedTxn e.key < m.sampleTxn + 1 then
        throw .diverges
      else if m.exactFit e.sample.t e.sample.v then
        pure { p with
          chunk := update p.chunk e.key []
          handed := p.handed ++ (now ++ [e]) }
      else
        pure { p with
          chunk := update p.chunk e.key [e]
          handed := p.handed ++ now }

/-- The writer of the series log takes `n` series and writes a record. -/
def writeSeries (p : PWal) (n : ℕ) : Except Fault PWal :=
  if 0 < n ∧ n ≤ itemNum ∧ n ≤ p.seriesQueue.length then
    pure { p with
      seriesLog := p.seriesLog ++ [p.seriesQueue.take n]
      seriesQueue := p.seriesQueue.drop n }
  else throw .assertion

/-- The writer of a sample log takes `n` samples, writes a record and counts the samples
of each series. -/
def writeSamples (i n : ℕ) (extend : Bool) : Except Fault PWal :=
  let w := p.wal i
  let record := w.queue.take n
  if i < walNum ∧ 0 < n ∧ n ≤ itemNum ∧ n ≤ w.queue.length then
    let w := SampleWal.addRecord { w with queue := w.queue.drop n } record
    let w := if extend then w.extendLog else w
    pure { p with
      wal := update p.wal i w
      flushedTxn := fun key =>
        if (p.head.forwardIndex key).isSome then
          p.flushedTxn key + (record.filter (·.key = key)).length
        else p.flushedTxn key
      logged := p.logged ++ record }
  else throw .assertion

/-- The number that cleaning reads for a series, where `slot` is what the slots hold. -/
def slotTxn (p : PWal) (slot : Word → BitVec 16 → Word) (sgid : Word) (mid : BitVec 16) :
    Option Word :=
  let key := (sgid.toNat, mid.toNat)
  -- `sid_` is set by the first chunk that is put
  if (p.head.forwardIndex key).isNone ∨ (p.mem key).chunkNum = 0 then none
  else some (slot sgid mid)

/-- `clean_sample_log(i)`. -/
def clean (i : ℕ) (slot : Word → BitVec 16 → Word) :
    Except Fault PWal :=
  let w := p.wal i
  let last := CleanSampleLog.lastFile w.curLogSeq
  let txn := p.slotTxn slot
  if walNum ≤ i then throw .outOfBounds
  else if (List.range (last + 1)).all (CleanSampleLog.readable LogEntry.sample txn w.files) then
    pure { p with
      wal := update p.wal i
        { w with
          files := CleanSampleLog.cleanSampleLog LogEntry.sample txn w.files w.curLogSeq
          linked := w.linked && decide (last < w.curLogSeq) } }
  else throw .diverges

inductive Op
  | add (a : ℕ) (lset : Labels) (t v : Word)
  | addFast (a : ℕ) (sgid : Word) (mid : BitVec 16) (t v : Word)
  | log (a : ℕ)
  | append (a : ℕ)
  | writeSeries (n : ℕ)
  | writeSamples (i n : ℕ) (extend : Bool)
  | clean (i : ℕ) (slot : Word → BitVec 16 → Word)

def step : Op → Except Fault PWal
  | .add a lset t v => p.add a lset t v
  | .addFast a sgid mid t v => pure (p.addFast a sgid mid t v)
  | .log a => p.log walNum a
  | .append a => p.append a
  | .writeSeries n => p.writeSeries n
  | .writeSamples i n extend => p.writeSamples walNum i n extend
  | .clean i slot => p.clean walNum i slot

end PWal

end PromTCS
