import Mathlib.Data.List.Forall2
import PromTCS.Chunk.XORChunk
import PromTCS.TreeSeries.Slab

/-!
# The head of a series

`head/TreeMemSeries` collects the samples of a series in one XOR chunk and
hands the chunk to the slab store when it is full. A chunk is full in one of two
ways: the sample just written ends in the last byte with at most two bits left,
or it goes past the end, and is then taken back, the chunk flushed, and the
sample appended to the next chunk.

`append` returns the call of `ConPutKV` it makes, if any. The two waiting loops
of `_flush_tree`, for the log thread and for a free slab, change nothing here
and are left out: a call is recorded when it succeeds.
-/

namespace PromTCS

open List XORChunk Endian

open BitString

/-- `LEVELDB_VALUE_HEADER_SIZE`. -/
def valueHeaderSize : ℕ := 11

/-- `std::numeric_limits<int64_t>::max()` and `min()`. -/
def int64Max : Word := 0x7fffffffffffffff#64

def int64Min : Word := 0x8000000000000000#64

/-- The eleven bytes before a chunk: a flag, the metric id as `EncodeFixed16`
(little endian) and the source id as `EncodeFixed64BE`. -/
def encodeValueHeader (sourceId metricId : ℕ) : List Byte :=
  [1#8, BitVec.ofNat 8 metricId, BitVec.ofNat 8 (metricId / 256)] ++
    (List.range 8).map fun i => BitVec.ofNat 8 (sourceId / 256 ^ (7 - i))

structure TreeMemSeries where
  minTime : Word
  maxTime : Word
  globalMaxTime : Word
  numSamples : ℤ
  tupleSt : Word
  chunk : BitStream
  appender : XORAppender
  sampleTxn : ℤ
  sourceId : ℕ
  metricId : ℕ
  headFlushTime : Word
  levelFlushTime : Word
  chunkNum : ℕ
  timeBoundary : Word
deriving DecidableEq, Repr

namespace TreeMemSeries

/-- The constructor; `tuple_st_` is not initialised by it. -/
def init (sourceId metricId : ℕ) (tupleSt : Word) : TreeMemSeries where
  minTime := int64Max
  maxTime := int64Min
  globalMaxTime := int64Min
  numSamples := 0
  tupleSt := tupleSt
  chunk := ofHeaderSize valueHeaderSize
  appender := XORAppender.initial
  sampleTxn := 0
  sourceId := sourceId
  metricId := metricId
  headFlushTime := 0#64
  levelFlushTime := 0#64
  chunkNum := 0
  timeBoundary := -1#64

variable (m : TreeMemSeries)

/-- `_flush_tree(tree_series, txn)`: the header is written over the reserved
bytes, the first `CHUNK_SIZE` bytes are put, and a fresh chunk is started. -/
def flushTree (txn : ℤ) : TreeMemSeries × PutCall :=
  let stream := encodeValueHeader m.sourceId m.metricId ++ m.chunk.stream.drop valueHeaderSize
  ({ m with
      chunk := ofHeaderSize valueHeaderSize
      appender := XORAppender.initial
      chunkNum := m.chunkNum + 1
      numSamples := 0 },
    { sourceId := m.sourceId
      metricId := m.metricId
      startTime := m.tupleSt
      endTime := m.maxTime
      value := stream.take chunkSize
      txn := txn })

/-- `for (i = prev_end; i <= cur_end; i++) stream[i] = 0`. The last round writes
behind the vector. -/
def zeroFrom (stream : List Byte) (prevEnd curEnd : ℕ) : List Byte :=
  (List.range' prevEnd (curEnd + 1 - prevEnd)).foldl (fun st i => st.set i 0#8) stream

def rollback (s : BitStream) (prevEnd : ℕ) (prevByte : Byte) : BitStream :=
  let stream := s.stream.set (prevEnd - 1) prevByte
  let stream := putUint16BigEndian stream s.headerSize
    (getUint16BigEndian stream s.headerSize - 1)
  { s with stream := zeroFrom stream prevEnd s.endPos, endPos := prevEnd }

/-- The assignments at the end of `append`. -/
def finish (timestamp : Word) : TreeMemSeries :=
  { m with
    maxTime := timestamp
    numSamples := m.numSamples + 1
    timeBoundary := timestamp.sdiv partitionLength * partitionLength
    tupleSt := if m.numSamples + 1 = 1 then timestamp else m.tupleSt }

variable (timestamp value : Word)

def written : BitStream :=
  (m.appender.append m.chunk timestamp value).2

def exactFit : Bool :=
  decide ((m.written timestamp value).endPos = chunkSize ∧
    (m.written timestamp value).tailCount ≥ 6)

def overflows : Bool :=
  decide ((m.written timestamp value).endPos > chunkSize)

def append : TreeMemSeries × Option PutCall :=
  let prevEnd := m.chunk.endPos
  let prevByte := m.chunk.stream.getD (prevEnd - 1) 0#8
  let m' := { m with
    globalMaxTime := if m.globalMaxTime.slt timestamp then timestamp else m.globalMaxTime
    minTime := if m.minTime = int64Max then timestamp else m.minTime
    sampleTxn := m.sampleTxn + 1
    appender := (m.appender.append m.chunk timestamp value).1
    chunk := m.written timestamp value }
  if m.exactFit timestamp value then
    let (m', put) := m'.flushTree (m'.sampleTxn - m'.numSamples + 1)
    ({ m' with headFlushTime := timestamp, minTime := int64Max,
               maxTime := int64Min }.finish timestamp, some put)
  else if m.overflows timestamp value then
    let m' := { m' with
      chunk := rollback m'.chunk prevEnd prevByte
      numSamples := m'.numSamples - 1 }
    let (m', put) := m'.flushTree (m'.sampleTxn - m'.numSamples + 1)
    let m' := { m' with headFlushTime := m'.maxTime, minTime := int64Max, maxTime := int64Min }
    let p := m'.appender.append m'.chunk timestamp value
    ({ m' with appender := p.1, chunk := p.2 }.finish timestamp, some put)
  else (m'.finish timestamp, none)

/-- A sequence of calls of `append`, with the calls of `ConPutKV` they make. -/
def appendAll (m : TreeMemSeries) : List Sample → TreeMemSeries × List PutCall
  | [] => (m, [])
  | (timestamp, value) :: samples =>
    let p := m.append timestamp value
    let q := appendAll p.1 samples
    (q.1, p.2.toList ++ q.2)

theorem zeroFrom_append (pre post : List Byte) :
    zeroFrom (pre ++ post) pre.length (pre.length + post.length) =
      pre ++ List.replicate post.length 0#8 := by
  induction post generalizing pre with
  | nil => simp [zeroFrom, set_eq_of_length_le]
  | cons x post ih =>
    have hlen : pre.length + (x :: post).length + 1 - pre.length =
        (pre ++ [0#8]).length + post.length + 1 - (pre ++ [0#8]).length + 1 := by
      simp only [length_cons, length_append, length_nil]
      omega
    have hset : (pre ++ x :: post).set pre.length 0#8 = (pre ++ [0#8]) ++ post := by
      simp
    have hih := ih (pre ++ [0#8])
    rw [zeroFrom] at hih ⊢
    rw [hlen, range'_succ, foldl_cons, hset]
    simp only [length_append, length_singleton] at hih ⊢
    rw [hih]
    simp [replicate_succ]

theorem exists_common_bytes {data data' : List Byte} {code code' : List Bool} {k k' : ℕ}
    (hcode : code ≠ []) (hk : k < 8) (hdata : ofBytes data = code ++ List.replicate k false)
    (hdata' : ofBytes data' = code ++ code' ++ List.replicate k' false) :
    ∃ ds x y post, data = ds ++ [x] ∧ data' = ds ++ y :: post := by
  have hpos := length_pos_iff.2 hcode
  have hlen := congrArg List.length hdata
  have hlen' := congrArg List.length hdata'
  simp only [length_ofBytes, length_append, length_replicate] at hlen hlen'
  cases data using List.reverseRecOn with
  | nil =>
    rw [length_nil] at hlen
    omega
  | append_singleton ds x =>
    rw [length_append, length_singleton] at hlen
    have htake : data'.take ds.length = ds := by
      apply ofBytes_injective
      have hds := congrArg (List.take (8 * ds.length)) hdata
      rw [ofBytes_append, take_append_of_le_length (by simp),
        take_of_length_le (by simp), take_append_of_le_length (by omega)] at hds
      rw [ofBytes_take, hdata', append_assoc,
        take_append_of_le_length (by omega), hds]
    have hrest : data'.drop ds.length ≠ [] := by
      rw [← length_pos_iff, length_drop]
      omega
    obtain ⟨y, post, hpost⟩ := exists_cons_of_ne_nil hrest
    refine ⟨ds, x, y, post, rfl, ?_⟩
    rw [← take_append_drop ds.length data', htake, hpost]

theorem stream_rollback {s : BitStream} {header : List Byte} {n : ℕ} {code : List Bool}
    (hs : s.Carries header n code) (hn : n + 1 < 65536) (hcode : code ≠ [])
    {s' : BitStream} {code' : List Bool} (hs' : s'.Carries header (n + 1) (code ++ code')) :
    (rollback s' s.endPos (s.stream.getD (s.endPos - 1) 0#8)).stream =
      s.stream ++ List.replicate (s'.endPos - s.endPos) 0#8 := by
  obtain ⟨data, k, hk, hstream, hdata⟩ := hs.exists_stream
  obtain ⟨data', k', -, hstream', hdata'⟩ := hs'.exists_stream
  obtain ⟨ds, x, y, post, rfl, rfl⟩ := exists_common_bytes hcode hk hdata hdata'
  have hend : s.endPos = header.length + 2 + ds.length + 1 := by
    rw [hs.holds.endPos_eq, hstream]
    simp [countBytes]
    omega
  have hend' : s'.endPos = header.length + 2 + ds.length + 1 + post.length := by
    rw [hs'.holds.endPos_eq, hstream']
    simp [countBytes]
    omega
  have hpre : ∀ m, s.endPos - 1 = (header ++ countBytes m ++ ds).length := by
    intro m
    simp [hend, countBytes]
    omega
  have hbyte : s.stream.getD (s.endPos - 1) 0#8 = x := by
    rw [hstream, ← append_assoc, hpre n, getD_eq_getElem?_getD,
      getElem?_concat_length, Option.getD_some]
  have hset : s'.stream.set (s.endPos - 1) x =
      header ++ countBytes (n + 1) ++ (ds ++ x :: post) := by
    rw [hstream', ← append_assoc, hpre (n + 1)]
    simp
  have hput : putUint16BigEndian (s'.stream.set (s.endPos - 1) x) s'.headerSize
      (getUint16BigEndian (s'.stream.set (s.endPos - 1) x) s'.headerSize - 1) =
      header ++ countBytes n ++ (ds ++ x :: post) := by
    rw [hset, hs'.headerSize_eq, getUint16BigEndian_append _ _ hn, Nat.add_sub_cancel]
    rw [append_assoc]
    exact putUint16BigEndian_append _ _ _ _ _
  have hsplit : header ++ countBytes n ++ (ds ++ x :: post) = s.stream ++ post := by
    rw [hstream]
    simp
  have hzero := zeroFrom_append s.stream post
  rw [← hs.holds.endPos_eq] at hzero
  simp only [rollback, hbyte, hput, hsplit]
  rw [show s'.endPos = s.endPos + post.length by omega, hzero, Nat.add_sub_cancel_left]

/-- The bytes of a put chunk decode to `l`. -/
def DecodesTo (value : List Byte) (l : List Sample) : Prop :=
  ∀ junk, ∃ it, (readIterator (value.drop valueHeaderSize) junk).drain =
    some (l, it) ∧ it.err = false

/-- The head chunk decodes to `l`. -/
def HeadDecodesTo (l : List Sample) : Prop :=
  ∀ junk, ∃ it, (xorIterator m.chunk junk).drain = some (l, it) ∧ it.err = false

/-- The head chunk holds the samples `l` and is not over its size. -/
structure Holds (m : TreeMemSeries) (l : List Sample) : Prop where
  encoded : ∃ header, header.length = valueHeaderSize ∧
    XORChunk.Encoded header l m.appender m.chunk
  endPos_le : m.chunk.endPos ≤ chunkSize

variable {m : TreeMemSeries} {l : List Sample} {timestamp value : Word} {put : PutCall}

theorem Holds.length_lt (h : m.Holds l) : l.length ≤ 1880 := by
  obtain ⟨header, hheader, code, window, hs, -, hle, -⟩ := h.encoded
  have hend := hs.endPos_eq
  have hle' := h.endPos_le
  unfold valueHeaderSize at hheader
  unfold chunkSize at hle'
  omega

theorem Holds.headDecodesTo (h : m.Holds l) : m.HeadDecodesTo l := by
  obtain ⟨header, -, henc⟩ := h.encoded
  have hlen := h.length_lt
  exact fun junk => henc.drain_eq (by omega) junk (length_bytes_le _)

theorem holds_nil (hchunk : m.chunk = ofHeaderSize valueHeaderSize)
    (happ : m.appender = XORAppender.initial) : m.Holds [] := by
  refine ⟨⟨List.replicate valueHeaderSize 0#8, by simp, ?_⟩, ?_⟩
  · rw [hchunk, happ]
    exact encoded_initial valueHeaderSize
  · rw [hchunk]
    decide

theorem Holds.written (h : m.Holds l) (timestamp value : Word) :
    ∃ header, header.length = valueHeaderSize ∧
      XORChunk.Encoded header (l ++ [(timestamp, value)])
        (m.appender.append m.chunk timestamp value).1 (m.written timestamp value) := by
  obtain ⟨header, hheader, henc⟩ := h.encoded
  have hlen := h.length_lt
  exact ⟨header, hheader, henc.append (by omega) timestamp value⟩

theorem endPos_written_nil (h : m.Holds []) (timestamp value : Word) :
    (m.written timestamp value).endPos ≤ 31 := by
  obtain ⟨header, hheader, code, window, hs, -, -, hnil⟩ := h.encoded
  obtain ⟨-, hsnd⟩ := XORAppender.append_carries hs (by simp) m.appender timestamp value
  have hle := m.appender.length_sampleCode_zero_le timestamp value
  rw [hnil rfl] at hsnd
  rw [TreeMemSeries.written, hsnd.endPos_eq, hheader]
  simp only [nil_append, length_nil, valueHeaderSize]
  omega

theorem ne_nil_of_overflows (h : m.Holds l) (hover : m.overflows timestamp value = true) :
    l ≠ [] := by
  rintro rfl
  have hgt : (m.written timestamp value).endPos > chunkSize := of_decide_eq_true hover
  have hle := endPos_written_nil h timestamp value
  unfold chunkSize at hgt
  omega

theorem ne_nil_of_exactFit (h : m.Holds l) (hfit : m.exactFit timestamp value = true) : l ≠ [] := by
  rintro rfl
  have heq := (of_decide_eq_true hfit).1
  have hle := endPos_written_nil h timestamp value
  unfold chunkSize at heq
  omega

structure PutOf (m : TreeMemSeries) (stream : List Byte) (put : PutCall) : Prop where
  sourceId_eq : put.sourceId = m.sourceId
  metricId_eq : put.metricId = m.metricId
  startTime_eq : put.startTime = m.tupleSt
  endTime_eq : put.endTime = m.maxTime
  value_eq : put.value = (encodeValueHeader m.sourceId m.metricId ++
    stream.drop valueHeaderSize).take chunkSize

/-- The head after `append`: its chunk, the number of samples and the first time
it believes the chunk to have, and its flush time. -/
structure HeadOf (m : TreeMemSeries) (appender : XORAppender) (chunk : BitStream)
    (numSamples : ℤ) (tupleSt headFlushTime : Word) : Prop where
  appender_eq : m.appender = appender
  chunk_eq : m.chunk = chunk
  numSamples_eq : m.numSamples = numSamples
  tupleSt_eq : m.tupleSt = tupleSt
  headFlushTime_eq : m.headFlushTime = headFlushTime

section AppendCases

variable {m : TreeMemSeries} {timestamp value : Word}

theorem append_of_exactFit (h : m.exactFit timestamp value = true) :
    ∃ put, (m.append timestamp value).2 = some put ∧
      m.PutOf (m.written timestamp value).stream put ∧
      (m.append timestamp value).1.HeadOf XORAppender.initial
        (ofHeaderSize valueHeaderSize) 1 timestamp timestamp := by
  unfold append
  simp only [h, if_true]
  exact ⟨_, rfl, ⟨rfl, rfl, rfl, rfl, rfl⟩, ⟨rfl, rfl, rfl, rfl, rfl⟩⟩

theorem append_of_overflows (hfit : ¬ m.exactFit timestamp value = true)
    (h : m.overflows timestamp value = true) :
    ∃ put, (m.append timestamp value).2 = some put ∧
      m.PutOf (rollback (m.written timestamp value) m.chunk.endPos
        (m.chunk.stream.getD (m.chunk.endPos - 1) 0#8)).stream put ∧
      (m.append timestamp value).1.HeadOf
        (XORAppender.initial.append (ofHeaderSize valueHeaderSize) timestamp value).1
        (XORAppender.initial.append (ofHeaderSize valueHeaderSize) timestamp value).2
        1 timestamp m.maxTime := by
  unfold append
  simp only [hfit, h, if_true, Bool.false_eq_true, if_false, flushTree, finish]
  exact ⟨_, rfl, ⟨rfl, rfl, rfl, rfl, rfl⟩, ⟨rfl, rfl, rfl, rfl, rfl⟩⟩

theorem append_of_fits (hfit : ¬ m.exactFit timestamp value = true)
    (h : ¬ m.overflows timestamp value = true) :
    (m.append timestamp value).2 = none ∧
      (m.append timestamp value).1.HeadOf
        (m.appender.append m.chunk timestamp value).1 (m.written timestamp value)
        (m.numSamples + 1) (if m.numSamples + 1 = 1 then timestamp else m.tupleSt)
        m.headFlushTime := by
  unfold append
  rw [if_neg hfit, if_neg h]
  exact ⟨rfl, rfl, rfl, rfl, rfl, rfl⟩

end AppendCases

section AppendFrame

variable (m : TreeMemSeries) (timestamp value : Word)

@[simp] theorem maxTime_append : (m.append timestamp value).1.maxTime = timestamp := by
  unfold append
  split_ifs <;> rfl

end AppendFrame

theorem length_encodeValueHeader (sourceId metricId : ℕ) :
    (encodeValueHeader sourceId metricId).length = valueHeaderSize := by
  simp [encodeValueHeader, valueHeaderSize]

theorem PutOf.drop_value {stream : List Byte} (h : m.PutOf stream put) :
    put.value.drop valueHeaderSize =
      (stream.drop valueHeaderSize).take (chunkSize - valueHeaderSize) := by
  rw [h.value_eq, drop_take, drop_append_of_le_length (by
      rw [length_encodeValueHeader]),
    drop_eq_nil_of_le (length_encodeValueHeader _ _).le, nil_append]

theorem Holds.decodesTo_of_exactFit (h : m.Holds l) (hfit : m.exactFit timestamp value = true)
    (hput : m.PutOf (m.written timestamp value).stream put) :
    DecodesTo put.value (l ++ [(timestamp, value)]) := by
  have hlen := h.length_lt
  obtain ⟨header, hheader, henc⟩ := h.written timestamp value
  obtain ⟨hend, -⟩ := of_decide_eq_true hfit
  have hbytes : put.value.drop valueHeaderSize = (m.written timestamp value).bytes := by
    obtain ⟨code, window, hs, -⟩ := henc
    rw [hput.drop_value, BitStream.bytes, hs.headerSize_eq, hheader,
      take_of_length_le]
    rw [length_drop, ← hs.holds.endPos_eq, hend]
  intro junk
  rw [readIterator, hbytes]
  refine henc.drain_eq ?_ junk le_rfl
  rw [length_append, length_singleton]
  omega

theorem Holds.decodesTo_of_overflows (h : m.Holds l) (hover : m.overflows timestamp value = true)
      (hput : m.PutOf (rollback (m.written timestamp value) m.chunk.endPos (m.chunk.stream.getD
      (m.chunk.endPos - 1) 0#8)).stream put) : DecodesTo put.value l := by
  have hlen := h.length_lt
  have hne := ne_nil_of_overflows h hover
  obtain ⟨header, hheader, code, window, hs, hd, hle, -⟩ := h.encoded
  have hcode : code ≠ [] := by
    have hpos := length_pos_iff.2 hne
    rw [← length_pos_iff]
    omega
  obtain ⟨-, hsnd⟩ := XORAppender.append_carries hs (by omega) m.appender timestamp value
  have hroll := stream_rollback hs (by omega) hcode hsnd
  obtain ⟨data, k, hk, hstream, hdata⟩ := hs.exists_stream
  have hbytes : put.value.drop valueHeaderSize = countBytes l.length ++
      (data ++ List.replicate (min (chunkSize - m.chunk.endPos)
        ((m.written timestamp value).endPos - m.chunk.endPos)) 0#8) := by
    have hend := h.endPos_le
    have hge : valueHeaderSize ≤ m.chunk.endPos := by
      rw [hs.endPos_eq, hheader]
      omega
    have hsize : (countBytes l.length ++ data).length =
        m.chunk.endPos - valueHeaderSize := by
      rw [hs.holds.endPos_eq, hstream]
      simp [hheader]
    rw [hput.drop_value, TreeMemSeries.written, hroll, hstream, append_assoc header,
      ← hheader, append_assoc header, drop_left, take_append,
      take_of_length_le (by rw [hsize, hheader]; omega), hsize, take_replicate,
      append_assoc, hheader]
    congr 4
    omega
  have hzeros : ofBytes (data ++ List.replicate (min (chunkSize - m.chunk.endPos)
      ((m.written timestamp value).endPos - m.chunk.endPos)) 0#8) =
      code ++ List.replicate (k + 8 * min (chunkSize - m.chunk.endPos)
        ((m.written timestamp value).endPos - m.chunk.endPos)) false := by
    rw [ofBytes_append, hdata, ofBytes_replicate_zero, append_assoc,
      ← replicate_add]
  intro junk
  obtain ⟨it, hdrain, hreach⟩ :=
    drain_of_bytes hd (by omega) hbytes hzeros junk le_rfl
  exact ⟨it, hdrain, hreach.err_eq⟩

theorem not_exactFit_of_overflows (h : m.overflows timestamp value = true) :
    ¬ m.exactFit timestamp value = true := by
  intro hfit
  have hgt : (m.written timestamp value).endPos > chunkSize := of_decide_eq_true h
  have heq := (of_decide_eq_true hfit).1
  omega

theorem holds_init (sourceId metricId : ℕ) (tupleSt : Word) :
    (init sourceId metricId tupleSt).Holds [] :=
  holds_nil rfl rfl

theorem holds_singleton {tupleSt headFlushTime : Word} (h : m.HeadOf (XORAppender.initial.append
      (ofHeaderSize valueHeaderSize) timestamp value).1 (XORAppender.initial.append
      (ofHeaderSize valueHeaderSize) timestamp value).2 1 tupleSt headFlushTime) :
    m.Holds [(timestamp, value)] := by
  have hinit := holds_init 0 0 0#64
  obtain ⟨header, hheader, henc⟩ := hinit.written timestamp value
  have hend := endPos_written_nil hinit timestamp value
  refine ⟨⟨header, hheader, ?_⟩, ?_⟩
  · rw [h.appender_eq, h.chunk_eq]
    exact henc
  · rw [h.chunk_eq]
    exact hend.trans (by decide)

theorem Holds.append_fits (h : m.Holds l) (hfit : ¬ m.exactFit timestamp value = true)
    (hover : ¬ m.overflows timestamp value = true) :
    (m.append timestamp value).1.Holds (l ++ [(timestamp, value)]) := by
  obtain ⟨-, hhead⟩ := append_of_fits hfit hover
  constructor
  · rw [hhead.appender_eq, hhead.chunk_eq]
    exact h.written timestamp value
  · rw [hhead.chunk_eq]
    exact Nat.le_of_not_lt fun hgt => hover (decide_eq_true hgt)

theorem Holds.append (h : m.Holds l) (timestamp value : Word) :
    ∃ chunks l', List.Forall₂ (fun put => DecodesTo put.value)
        (m.append timestamp value).2.toList chunks ∧
      (m.append timestamp value).1.Holds l' ∧
      chunks.flatten ++ l' = l ++ [(timestamp, value)] := by
  by_cases hfit : m.exactFit timestamp value = true
  · obtain ⟨put, hsome, hput, hhead⟩ := append_of_exactFit hfit
    refine ⟨[l ++ [(timestamp, value)]], [], ?_, ?_, by simp⟩
    · rw [hsome]
      exact .cons (h.decodesTo_of_exactFit hfit hput) .nil
    · exact holds_nil hhead.chunk_eq hhead.appender_eq
  · by_cases hover : m.overflows timestamp value = true
    · obtain ⟨put, hsome, hput, hhead⟩ := append_of_overflows hfit hover
      refine ⟨[l], [(timestamp, value)], ?_, holds_singleton hhead, by simp⟩
      rw [hsome]
      exact .cons (h.decodesTo_of_overflows hover hput) .nil
    · obtain ⟨hnone, -⟩ := append_of_fits hfit hover
      refine ⟨[], l ++ [(timestamp, value)], ?_, h.append_fits hfit hover, by simp⟩
      rw [hnone]
      exact .nil

theorem Holds.appendAll (h : m.Holds l) (samples : List Sample) :
    ∃ chunks l', List.Forall₂ (fun put => DecodesTo put.value)
        (m.appendAll samples).2 chunks ∧
      (m.appendAll samples).1.Holds l' ∧ chunks.flatten ++ l' = l ++ samples := by
  induction samples generalizing m l with
  | nil => exact ⟨[], l, .nil, h, by simp⟩
  | cons sample samples ih =>
    obtain ⟨timestamp, value⟩ := sample
    obtain ⟨chunks, l₁, hchunks, h₁, happ⟩ := h.append timestamp value
    obtain ⟨chunks', l', hchunks', h', happ'⟩ := ih h₁
    refine ⟨chunks ++ chunks', l', rel_append hchunks hchunks', h', ?_⟩
    rw [flatten_append, append_assoc, happ', ← append_assoc, happ,
      append_assoc, singleton_append]

end TreeMemSeries

open TreeMemSeries

/-- The head loses, doubles and reorders nothing: what the put chunks decode to, in
order, followed by what the head chunk decodes to, is the sequence of samples
appended. When a sample does not fit, the chunk that is put decodes to what the
head held before that sample. -/
theorem treeMemSeries_append_keeps (sourceId metricId : ℕ) (tupleSt : Word)
    (samples : List Sample) :
    (∃ chunks head, List.Forall₂ (fun put => TreeMemSeries.DecodesTo put.value)
        ((TreeMemSeries.init sourceId metricId tupleSt).appendAll samples).2 chunks ∧
      ((TreeMemSeries.init sourceId metricId tupleSt).appendAll samples).1.HeadDecodesTo head ∧
      chunks.flatten ++ head = samples) ∧
    ∀ timestamp value : Word,
      ((TreeMemSeries.init sourceId metricId tupleSt).appendAll samples).1.overflows
        timestamp value = true →
      ∃ put head,
        (((TreeMemSeries.init sourceId metricId tupleSt).appendAll samples).1.append
          timestamp value).2 = some put ∧
        ((TreeMemSeries.init sourceId metricId tupleSt).appendAll samples).1.HeadDecodesTo head ∧
        TreeMemSeries.DecodesTo put.value head := by
  obtain ⟨chunks, l, hchunks, hl, happ⟩ :=
    (holds_init sourceId metricId tupleSt).appendAll samples
  refine ⟨⟨chunks, l, hchunks, hl.headDecodesTo, happ⟩, fun timestamp value hover => ?_⟩
  obtain ⟨put, hsome, hput, -⟩ := append_of_overflows
    (not_exactFit_of_overflows hover) hover
  exact ⟨put, l, hsome, hl.headDecodesTo, hl.decodesTo_of_overflows hover hput⟩

/-- The indices the loop `for (i = prev_end; i <= cur_end; i++)` of `append` clears. -/
def TreeMemSeries.cleared (m : TreeMemSeries) (timestamp value : Word) : List ℕ :=
  List.range' m.chunk.endPos ((m.written timestamp value).endPos + 1 - m.chunk.endPos)

theorem TreeMemSeries.Holds.length_mem_cleared {m : TreeMemSeries} {l : List Sample}
    {timestamp value : Word} (h : m.Holds l) (hover : m.overflows timestamp value = true) :
    (m.written timestamp value).stream.length ∈ m.cleared timestamp value := by
  obtain ⟨header, -, code, window, hs, -⟩ := h.written timestamp value
  have hgt : (m.written timestamp value).endPos > chunkSize := of_decide_eq_true hover
  have hle := h.endPos_le
  rw [← hs.holds.endPos_eq, cleared, mem_range'_1]
  omega

/-- The bound of the clearing loop is inclusive and `end` is the length of the vector, so
the last round writes behind it whenever a sample overflows. -/
theorem treeMemSeries_cleared_inside_iff (sourceId metricId : ℕ) (tupleSt : Word)
    (samples : List Sample) (timestamp value : Word) :
    let m := ((TreeMemSeries.init sourceId metricId tupleSt).appendAll samples).1
    (m.overflows timestamp value = true → ∀ i ∈ m.cleared timestamp value,
      i < (m.written timestamp value).stream.length) ↔ ¬ m.overflows timestamp value = true := by
  intro m
  obtain ⟨-, l, -, hl, -⟩ :=
    (holds_init sourceId metricId tupleSt).appendAll samples
  refine ⟨fun h hover => ?_, fun hfits hover => absurd hover hfits⟩
  exact (h hover _ (hl.length_mem_cleared hover)).false

/-- Samples whose timestamps and values change in most of their bits. -/
def wideSamples (n : ℕ) : List Sample :=
  (List.range n).map fun i =>
    (BitVec.ofNat 64 (i * i * 2 ^ 40), if i % 2 = 0 then 1#64 else 0x8000000000000000#64)

theorem treeMemSeries_cleared_behind :
    ∃ m, m = ((TreeMemSeries.init 1 1 0#64).appendAll (wideSamples 14)).1 ∧
      m.overflows 0#64 7#64 = true ∧
      ¬ ∀ i ∈ m.cleared 0#64 7#64, i < (m.written 0#64 7#64).stream.length := by
  obtain ⟨-, l, -, hl, -⟩ := (holds_init 1 1 0#64).appendAll (wideSamples 14)
  have hover : ((TreeMemSeries.init 1 1 0#64).appendAll (wideSamples 14)).1.overflows
      0#64 7#64 = true := by
    decide +kernel
  exact ⟨_, rfl, hover, fun h => (h _ (hl.length_mem_cleared hover)).false⟩

end PromTCS
