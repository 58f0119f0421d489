import PromTCS.Wal.GorillaRecord
import PromTCS.Wal.PWal

/-!
# Batches of the write-ahead log

`parallel_wal/parallel_wal`: the writer of a `Wal` pops one item after the other into an
array and writes the array as a record when it is full or the queue looks empty. `Flush`
goes on with the same array once the writer has stopped. Appends may come between any two
operations on a queue. A push waits while its queue is full, which only takes runs away,
so the queues are not bounded here; nor does the log depend on the transaction numbers
that the writer counts.

The batches written, the array and the queue are together what was appended, and from the
record of a batch the readers of `leveldb/db/log_reader` get the batch again.
-/

namespace PromTCS

open List Function

/-- A writer is at one of its loop tests, or has popped an item and not yet looked whether
the array is to be written. -/
inductive WriterPc
  | loopTest
  | popped
deriving DecidableEq, Repr

/-- A `Wal`: `items` is the array up to `cur_item_num_`, `files` are the log files before
the open one. -/
structure BatchWal (α ρ : Type) where
  queue : List α
  items : List α
  pc : WriterPc
  files : List (List ρ)
  openFile : List ρ

namespace BatchWal

variable {α ρ : Type}

def init : BatchWal α ρ := ⟨[], [], .loopTest, [], []⟩

def records (w : BatchWal α ρ) : List ρ :=
  w.files.flatten ++ w.openFile

def append (w : BatchWal α ρ) (x : α) : BatchWal α ρ :=
  { w with queue := w.queue ++ [x] }

section Writer

variable (encode : List α → ρ) (full : List ρ → Bool)

variable (w : BatchWal α ρ)

/-- `TryExtendLog()`, where `full` tells whether `write_off()` is over `MAX_LOG_SIZE`. -/
def tryExtendLog : BatchWal α ρ :=
  if full w.openFile then { w with files := w.files ++ [w.openFile], openFile := [] } else w

/-- `AddRecord` of the array, and `cur_item_num_ = 0`. -/
def addRecord : BatchWal α ρ :=
  tryExtendLog full { w with openFile := w.openFile ++ [encode w.items], items := [] }

/-- The body of the popping loops. -/
def writeIfDue : BatchWal α ρ :=
  if itemNum ≤ w.items.length ∨ w.queue.isEmpty then w.addRecord encode full else w

/-- `WriteToDiskBG()` up to its next operation on the queue. -/
def writerStep : BatchWal α ρ :=
  match w.pc, w.queue with
  | .loopTest, [] => w
  | .loopTest, x :: queue =>
    { w with queue := queue, items := w.items ++ [x], pc := .popped }
  | .popped, _ => { w.writeIfDue encode full with pc := .loopTest }

def flushLoop : List α → BatchWal α ρ → BatchWal α ρ
  | [], w => { w with queue := [] }
  | x :: queue, w =>
    flushLoop queue (writeIfDue encode full { w with queue := queue, items := w.items ++ [x] })

def flush : BatchWal α ρ :=
  let w := flushLoop encode full w.queue w
  if w.items.isEmpty then w else w.addRecord encode full

end Writer

/-- The records are those of batches that are, one after the other, the items `l`. -/
def Logged (encode : List α → ρ) (records : List ρ) (l : List α) : Prop :=
  ∃ batches : List (List α), records = batches.map encode ∧ batches.flatten = l ∧
    ∀ b ∈ batches, b ≠ [] ∧ b.length ≤ itemNum

/-- The records are read as batches that are, one after the other, the items `l`. -/
def ReadBack (reads : List α → ρ → Prop) (records : List ρ) (l : List α) : Prop :=
  ∃ batches : List (List α), Forall₂ reads batches records ∧ batches.flatten = l ∧
    ∀ b ∈ batches, b ≠ [] ∧ b.length ≤ itemNum

/-- What is logged, the array and the queue are together `l`. -/
def Carries (encode : List α → ρ) (w : BatchWal α ρ) (l : List α) : Prop :=
  ∃ written, Logged encode w.records written ∧ written ++ w.items ++ w.queue = l

/-- The array has room for the next item. -/
structure Right (encode : List α → ρ) (w : BatchWal α ρ) (l : List α) : Prop where
  carries : w.Carries encode l
  room : w.pc = .loopTest → w.items.length < itemNum
  popped : w.pc = .popped → w.items ≠ [] ∧ w.items.length ≤ itemNum

variable {encode : List α → ρ} (full : List ρ → Bool) {w : BatchWal α ρ} {l : List α}

theorem right_init : (init : BatchWal α ρ).Right encode [] :=
  ⟨⟨[], ⟨[], rfl, rfl, by simp⟩, rfl⟩, fun _ => Nat.succ_pos 255, nofun⟩

theorem Right.append (h : w.Right encode l) (x : α) : (w.append x).Right encode (l ++ [x]) := by
  obtain ⟨written, hlog, rfl⟩ := h.carries
  exact ⟨⟨written, hlog, (append_assoc _ w.queue _).symm⟩, h.room, h.popped⟩

theorem addRecord_eq (w : BatchWal α ρ) : (w.addRecord encode full).items = [] ∧
    (w.addRecord encode full).queue = w.queue ∧
    (w.addRecord encode full).records = w.records ++ [encode w.items] := by
  unfold addRecord tryExtendLog records
  split <;> simp

section Write

variable (h : w.Carries encode l) (hne : w.items ≠ []) (hle : w.items.length ≤ itemNum)

include h hne hle

theorem Carries.addRecord : (w.addRecord encode full).Carries encode l := by
  obtain ⟨written, ⟨batches, hbatches, rfl, hb⟩, heq⟩ := h
  obtain ⟨hitems, hqueue, hrecords⟩ := w.addRecord_eq full
  refine ⟨_, ⟨batches ++ [w.items], ?_, rfl, fun b hmem => ?_⟩, ?_⟩
  · rw [hrecords, hbatches, map_append]
    rfl
  · rcases mem_append.1 hmem with hold | hnew
    · exact hb b hold
    · exact mem_singleton.1 hnew ▸ ⟨hne, hle⟩
  · rw [hitems, hqueue, append_nil, flatten_append, flatten_singleton, heq]

theorem Carries.writeIfDue : (w.writeIfDue encode full).Carries encode l ∧
    (w.writeIfDue encode full).items.length < itemNum ∧
    (w.writeIfDue encode full).queue = w.queue := by
  unfold BatchWal.writeIfDue
  obtain ⟨hitems, hqueue, -⟩ := w.addRecord_eq full
  split_ifs with hdue
  · exact ⟨h.addRecord full hne hle, hitems ▸ Nat.succ_pos 255, hqueue⟩
  · exact ⟨h, Nat.lt_of_not_le fun hge => hdue (Or.inl hge), rfl⟩

end Write

theorem Carries.pop (h : w.Carries encode l) {x : α} {queue : List α} (hqueue : w.queue = x :: queue)
    (pc : WriterPc) :
    Carries encode { w with queue := queue, items := w.items ++ [x], pc := pc } l := by
  obtain ⟨written, hlog, rfl⟩ := h
  exact ⟨written, hlog, by simp [hqueue]⟩

theorem Right.writerStep (h : w.Right encode l) : (w.writerStep encode full).Right encode l := by
  unfold BatchWal.writerStep
  split
  · exact h
  · rename_i x queue hpc hqueue
    refine ⟨h.carries.pop hqueue _, nofun, fun _ => ⟨by simp, ?_⟩⟩
    simpa using Nat.succ_le_iff.2 (h.room hpc)
  · rename_i hpc
    obtain ⟨hne, hle⟩ := h.popped hpc
    obtain ⟨hcarries, hroom, -⟩ := h.carries.writeIfDue full hne hle
    exact ⟨hcarries, fun _ => hroom, nofun⟩

theorem Carries.flushLoop {queue : List α} (h : w.Carries encode l) (hqueue : w.queue = queue)
    (hroom : w.items.length < itemNum) : (flushLoop encode full queue w).Carries encode l ∧
      (flushLoop encode full queue w).queue = [] ∧
      (flushLoop encode full queue w).items.length < itemNum := by
  induction queue generalizing w with
  | nil =>
    have hself : BatchWal.flushLoop encode full [] w = w := by
      rw [BatchWal.flushLoop, ← hqueue]
    rw [hself]
    exact ⟨h, hqueue, hroom⟩
  | cons x queue ih =>
    obtain ⟨hcarries, hroom', hqueue'⟩ := (h.pop hqueue w.pc).writeIfDue full (by simp)
      (by simpa using Nat.succ_le_iff.2 hroom)
    exact ih hcarries hqueue' hroom'

theorem Right.flush (h : w.Right encode l) (hpc : w.pc = .loopTest) :
    Logged encode (w.flush encode full).records l := by
  obtain ⟨hcarries, hqueue, hroom⟩ := h.carries.flushLoop full rfl (h.room hpc)
  unfold BatchWal.flush
  generalize BatchWal.flushLoop encode full w.queue w = v at hcarries hqueue hroom
  have hdone : ∀ {v : BatchWal α ρ}, v.Carries encode l → v.items = [] → v.queue = [] →
      Logged encode v.records l := by
    rintro v ⟨written, hlog, rfl⟩ hitems hqueue
    rwa [hitems, hqueue, append_nil, append_nil]
  obtain ⟨hitems', hqueue', -⟩ := v.addRecord_eq full
  simp only
  split_ifs with hempty
  · exact hdone hcarries (List.isEmpty_iff.1 hempty) hqueue
  · -- what the loop leaves in the array
    exact hdone (hcarries.addRecord full (fun hnil => hempty (List.isEmpty_iff.2 hnil)) hroom.le)
      hitems' (hqueue'.trans hqueue)

theorem Logged.readBack {reads : List α → ρ → Prop} {records : List ρ}
    (h : Logged encode records l)
    (hreads : ∀ b, b ≠ [] → b.length ≤ itemNum → reads b (encode b)) :
    ReadBack reads records l := by
  obtain ⟨batches, rfl, hl, hb⟩ := h
  refine ⟨batches, forall₂_map_right_iff.mpr (forall₂_same.mpr fun b hmem => ?_), hl, hb⟩
  exact hreads b (hb b hmem).1 (hb b hmem).2

end BatchWal

/-- The records of samples and of series; `none` would be a read behind the array. -/
abbrev WalRecord := Option (List Byte)

structure PWalManagement where
  sampleWal : ℕ → BatchWal TreeRefSample WalRecord
  tagWal : BatchWal TreeRefSeries WalRecord

inductive WalOp
  | appendSample (s : TreeRefSample)
  | appendSeries (s : TreeRefSeries)
  | writeSamples (i : ℕ)
  | writeSeries

namespace WalOp

def sample? : WalOp → Option TreeRefSample
  | appendSample s => some s
  | _ => none

def series? : WalOp → Option TreeRefSeries
  | appendSeries s => some s
  | _ => none

end WalOp

namespace PWalManagement

def encodeSamples (items : List TreeRefSample) : WalRecord :=
  LogWriter.treeSamplesGorillaArray items (BitVec.ofNat 32 items.length)

def encodeSeries (items : List TreeRefSeries) : WalRecord :=
  some (LogWriter.treeSeriesArray items (BitVec.ofNat 32 items.length))

/-- The samples of a batch are read from its record, with their values if the batch is
narrow. -/
def ReadsSamples (b : List TreeRefSample) (record : WalRecord) : Prop :=
  ∃ bytes l, record = some bytes ∧ LogReader.treeSamplesGorilla bytes = .ok (some l) ∧
    Forall₂ LogReader.SameButValue b l ∧ (LogReader.NarrowBatch b → l = b)

/-- The series of a batch are read from its record if that is shorter than 2 GiB. -/
def ReadsSeries (b : List TreeRefSeries) (record : WalRecord) : Prop :=
  ∃ bytes, record = some bytes ∧
    (bytes.length < 2 ^ 31 → (PlainRecord.series b).ReadBack bytes)

theorem readsSamples_encodeSamples (b : List TreeRefSample) (hne : b ≠ [])
    (hlen : b.length ≤ itemNum) : ReadsSamples b (encodeSamples b) := by
  obtain ⟨s, rest, rfl⟩ := exists_cons_of_ne_nil hne
  obtain ⟨bytes, hbytes, hread⟩ :=
    LogWriter.treeSamplesGorilla_eq_some s rest (hlen.trans_lt (by decide))
  exact ⟨bytes, _, hbytes, hread, LogReader.forall₂_decoded _, (LogReader.decoded_eq_iff _).mpr⟩

theorem readsSeries_encodeSeries (b : List TreeRefSeries) (hlen : b.length ≤ itemNum) :
    ReadsSeries b (encodeSeries b) := by
  have hwritten : (PlainRecord.series b).written = encodeSeries b :=
    (PlainRecord.writtenArray_series (hlen.trans_lt (by decide))).symm
  exact ⟨_, rfl, PlainRecord.readBack_of_written hwritten⟩

def init : PWalManagement := ⟨fun _ => .init, .init⟩

def step (walNum : ℕ) (full : List WalRecord → Bool) (p : PWalManagement) :
    WalOp → PWalManagement
  | .appendSample s =>
    let i := s.mid.toNat % walNum
    { p with sampleWal := update p.sampleWal i ((p.sampleWal i).append s) }
  | .appendSeries s => { p with tagWal := p.tagWal.append s }
  | .writeSamples i =>
    { p with sampleWal := update p.sampleWal i ((p.sampleWal i).writerStep encodeSamples full) }
  | .writeSeries => { p with tagWal := p.tagWal.writerStep encodeSeries full }

variable {walNum : ℕ} (full : List WalRecord → Bool) {p : PWalManagement}

structure Right (walNum : ℕ) (p : PWalManagement) (samples : List TreeRefSample)
    (series : List TreeRefSeries) : Prop where
  sampleWal : ∀ i, (p.sampleWal i).Right encodeSamples
    (samples.filter fun s => s.mid.toNat % walNum = i)
  tagWal : p.tagWal.Right encodeSeries series

theorem Right.step {samples : List TreeRefSample} {series : List TreeRefSeries}
    (h : p.Right walNum samples series) (op : WalOp) :
    (p.step walNum full op).Right walNum (samples ++ op.sample?.toList)
      (series ++ op.series?.toList) := by
  cases op with
  | appendSample s =>
    refine ⟨fun i => ?_, by simpa [WalOp.series?, PWalManagement.step] using h.tagWal⟩
    rw [WalOp.sample?, Option.toList_some, filter_append]
    by_cases hi : s.mid.toNat % walNum = i
    · simpa [PWalManagement.step, hi] using (h.sampleWal i).append s
    · simpa [PWalManagement.step, hi, update_of_ne (Ne.symm hi)] using h.sampleWal i
  | appendSeries s =>
    exact ⟨fun i => by simpa [WalOp.sample?, PWalManagement.step] using h.sampleWal i,
      h.tagWal.append s⟩
  | writeSamples j =>
    refine ⟨fun i => ?_, by simpa [WalOp.series?, PWalManagement.step] using h.tagWal⟩
    rw [show (WalOp.writeSamples j).sample?.toList = [] from rfl, append_nil]
    by_cases hi : i = j
    · subst hi
      simpa [PWalManagement.step] using (h.sampleWal i).writerStep full
    · simpa [PWalManagement.step, update_of_ne hi] using h.sampleWal i
  | writeSeries =>
    exact ⟨fun i => by simpa [WalOp.sample?, PWalManagement.step] using h.sampleWal i,
      by simpa [WalOp.series?, PWalManagement.step] using h.tagWal.writerStep full⟩

theorem Right.foldl (ops : List WalOp) {samples : List TreeRefSample}
    {series : List TreeRefSeries} (h : p.Right walNum samples series) :
    (ops.foldl (PWalManagement.step walNum full) p).Right walNum
      (samples ++ ops.filterMap WalOp.sample?) (series ++ ops.filterMap WalOp.series?) := by
  induction ops generalizing p samples series with
  | nil => simpa using h
  | cons op ops ih =>
    have hrest := ih (h.step full op)
    cases op <;> simpa [filterMap_cons, WalOp.sample?, WalOp.series?] using hrest

end PWalManagement

open PWalManagement in
/-- However appends and the steps of the writers are interleaved, a `Flush` of a log whose
writer has stopped at a loop test leaves the appended samples of that log, or the appended
series, in its records, from which they are read: all of them, once and in their order. -/
theorem pWalManagement_logged (walNum : ℕ) (full : List WalRecord → Bool) (ops : List WalOp) :
    let p := ops.foldl (PWalManagement.step walNum full) .init
    (∀ i, (p.sampleWal i).pc = .loopTest →
      BatchWal.ReadBack ReadsSamples ((p.sampleWal i).flush encodeSamples full).records
        ((ops.filterMap WalOp.sample?).filter fun s => s.mid.toNat % walNum = i)) ∧
    (p.tagWal.pc = .loopTest →
      BatchWal.ReadBack ReadsSeries (p.tagWal.flush encodeSeries full).records
        (ops.filterMap WalOp.series?)) := by
  have hinit : PWalManagement.init.Right walNum [] [] :=
    ⟨fun _ => BatchWal.right_init, BatchWal.right_init⟩
  have h := hinit.foldl full ops
  exact ⟨fun i hpc => ((h.sampleWal i).flush full hpc).readBack readsSamples_encodeSamples,
    fun hpc => (h.tagWal.flush full hpc).readBack fun b _ => readsSeries_encodeSeries b⟩

namespace PWalManagement

def sampleAt (t : Word) : TreeRefSample := ⟨1, 1, t, 0x3FF0000000000000, 0⟩

/-- The writer of the samples finds a second item in the queue and goes on, writes both, takes
a third one and stops with it in the array while a fourth is in the queue. -/
def carryingRun : List WalOp :=
  [.appendSeries ⟨1, 1, [⟨[97], [98]⟩], none, 0, 0⟩, .appendSample (sampleAt 15),
    .appendSample (sampleAt 30), .writeSamples 1, .writeSeries, .writeSamples 1, .writeSamples 1,
    .writeSeries, .writeSamples 1, .appendSample (sampleAt 45), .appendSample (sampleAt 60),
    .writeSamples 1, .writeSamples 1]

end PWalManagement

open PWalManagement in
/-- Each record is put into a file of its own. -/
theorem pWalManagement_logged_carryingRun :
    let full := fun records : List WalRecord => decide (records ≠ [])
    let p := carryingRun.foldl (PWalManagement.step 5 full) .init
    (p.sampleWal 1).records.length = 1 ∧ (p.sampleWal 1).items = [sampleAt 45] ∧
      (p.sampleWal 1).queue = [sampleAt 60] ∧
      BatchWal.ReadBack ReadsSamples ((p.sampleWal 1).flush encodeSamples full).records
        [sampleAt 15, sampleAt 30, sampleAt 45, sampleAt 60] ∧
      BatchWal.ReadBack ReadsSeries (p.tagWal.flush encodeSeries full).records
        [⟨1, 1, [⟨[97], [98]⟩], none, 0, 0⟩] := by
  intro full p
  have hstate : (p.sampleWal 1).pc = .loopTest ∧ (p.sampleWal 1).records.length = 1 ∧
      (p.sampleWal 1).items = [sampleAt 45] ∧ (p.sampleWal 1).queue = [sampleAt 60] := by
    decide +kernel
  have hseries : p.tagWal.pc = .loopTest := by
    decide +kernel
  have hitems : (carryingRun.filterMap WalOp.sample?).filter (fun s => s.mid.toNat % 5 = 1) =
      [sampleAt 15, sampleAt 30, sampleAt 45, sampleAt 60] := by
    decide +kernel
  obtain ⟨hsamples, hlog⟩ := pWalManagement_logged 5 full carryingRun
  exact ⟨hstate.2.1, hstate.2.2.1, hstate.2.2.2, hitems ▸ hsamples 1 hstate.1, hlog hseries⟩

end PromTCS
