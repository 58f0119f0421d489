import PromTCS.Chunk.XORIterator

/-!
# XOR chunks

`chunk/XORChunk`: a stream with a header, written by an appender and read by
iterators. `appender()` may be called again at any time; it decodes the chunk to
find the state to go on from. The memory behind the vector is arbitrary, because
the iterator of a chunk in write mode is given the size of the whole vector,
header included, while its pointer starts after the header.

`Decodes` is the invariant of the codec: whatever memory holds the code of the
samples, the iterator returns these samples and ends up in step with the
appender.
-/

namespace PromTCS

open List

open BitString BitReader

namespace XORChunk

/-- `XORChunk(header_size)`. -/
def ofHeaderSize (headerSize : ℕ) : BitStream :=
  BitStream.ofSize 2 headerSize

/-- What a pointer to `bytes` sees; the memory after them is arbitrary. -/
def memory (bytes : List Byte) (junk : ℕ → Byte) : ℕ → Byte :=
  fun i => bytes.getD i (junk i)

/-- `iterator()` and `xor_iterator()` of a chunk in write mode. -/
def xorIterator (s : BitStream) (junk : ℕ → Byte) : XORIterator :=
  XORIterator.ofPtr (memory s.bytes junk) s.stream.length

/-- The iterator of `XORChunk(stream_ptr, size)`, a chunk in read mode. -/
def readIterator (bytes : List Byte) (junk : ℕ → Byte) : XORIterator :=
  XORIterator.ofPtr (memory bytes junk) bytes.length

def numSamples (s : BitStream) : ℕ :=
  Endian.getUint16BigEndian s.stream s.headerSize

def appenderOf (s : BitStream) (it : XORIterator) : XORAppender where
  timestamp := it.timestamp
  value := it.value
  deltaTimestamp := it.deltaTimestamp
  leadingZero := if numSamples s = 0 then 0xff else it.leadingZero
  trailingZero := it.trailingZero

/-- `appender()` of a chunk in write mode. -/
def appender (s : BitStream) (junk : ℕ → Byte) : Except TSDBException XORAppender :=
  match (xorIterator s junk).drain with
  | none => .error ⟨"Broken BitStream in XORChunk"⟩
  | some (_, it) =>
    if it.err then .error ⟨"Broken BitStream in XORChunk"⟩ else .ok (appenderOf s it)

end XORChunk

open XORChunk

namespace XORIterator

/-- Successive successful calls of `next`, with the samples they return. -/
inductive Steps : XORIterator → List Sample → XORIterator → Prop
  | nil (it : XORIterator) : Steps it [] it
  | snoc {it it' it'' : XORIterator} {l : List Sample} (h : Steps it l it')
      (hnext : it'.next = (true, it'')) : Steps it (l ++ [it''.at']) it''

theorem Steps.collect_eq {it it' : XORIterator} {l : List Sample} (h : Steps it l it')
    (fuel : ℕ) :
    collect (fuel + l.length) it = (collect fuel it').map fun p => (l ++ p.1, p.2) := by
  induction h generalizing fuel with
  | nil => simp
  | @snoc it' it'' l h hnext ih =>
    have hlen : fuel + (l ++ [it''.at']).length = (fuel + 1) + l.length := by
      simp
      omega
    rw [hlen, ih, collect, hnext, Option.map_map]
    congr 1
    funext p
    simp

structure Fresh (it : XORIterator) : Prop where
  timestamp_eq : it.timestamp = 0#64
  value_eq : it.value = 0#64
  delta_eq : it.deltaTimestamp = 0#64
  leadingZero_eq : it.leadingZero = 0
  trailingZero_eq : it.trailingZero = 0
  numRead_eq : it.numRead = 0
  err_eq : it.err = false

theorem fresh_ofPtr (mem : ℕ → Byte) (size : ℕ) : (ofPtr mem size).Fresh :=
  ⟨rfl, rfl, rfl, rfl, rfl, rfl, rfl⟩

/-- The iterator `it` has returned `samples` and is in step with `a`. -/
structure Reached (it : XORIterator) (samples : List Sample) (a : XORAppender)
    (window : ℕ × ℕ) : Prop where
  synced : it.Synced a
  window_eq : (it.leadingZero, it.trailingZero) = window
  numRead_eq : it.numRead = samples.length
  err_eq : it.err = false
  delta_zero : samples = [] → it.deltaTimestamp = 0#64

end XORIterator

/-- On the bits `code` an iterator returns `samples` and is then in step with the
appender `a`, with the window `window`. -/
def Decodes (code : List Bool) (samples : List Sample) (a : XORAppender)
    (window : ℕ × ℕ) : Prop :=
  ∀ (it : XORIterator) (rest : List Bool), it.Fresh → samples.length ≤ it.numTotal →
    it.bstream.Avail (code ++ rest) → ∃ it', it.Steps samples it' ∧
      it'.Reached samples a window ∧ it'.numTotal = it.numTotal ∧ it'.bstream.Avail rest

def XORAppender.initial : XORAppender :=
  ⟨0#64, 0#64, 0#64, 0xff, 0⟩

theorem decodes_nil : Decodes [] [] XORAppender.initial (0, 0) := by
  intro it rest hf _ h
  refine ⟨it, .nil it, ⟨⟨⟨hf.value_eq, Or.inl rfl, ?_⟩, hf.timestamp_eq, hf.delta_eq⟩, ?_,
    hf.numRead_eq, hf.err_eq, fun _ => hf.delta_eq⟩, rfl, h⟩
  · rw [hf.leadingZero_eq, hf.trailingZero_eq]
    omega
  · rw [hf.leadingZero_eq, hf.trailingZero_eq]

variable {code : List Bool}

theorem Decodes.append {samples : List Sample} {a : XORAppender} {window : ℕ × ℕ}
    (h : Decodes code samples a window) (timestamp value : Word) :
    Decodes (code ++ a.sampleCode samples.length timestamp value)
      (samples ++ [(timestamp, value)]) (a.advance samples.length timestamp value)
      (if samples.length = 0 then window else XORIterator.windowAfter a value window) := by
  intro it rest hf htotal havail
  rw [length_append, length_singleton] at htotal
  rw [append_assoc] at havail
  obtain ⟨it₁, hsteps, hreach, htot, hav⟩ := h it _ hf (by omega) havail
  rw [← hreach.numRead_eq] at hav htotal ⊢
  obtain ⟨r, hr, hnext⟩ := XORIterator.next_of_synced hreach.synced (by omega) hreach.err_eq
    timestamp value hav
  refine ⟨_, .snoc hsteps hnext, ⟨?_, ?_, ?_, hreach.err_eq, by simp⟩, htot, hr⟩
  · refine hreach.synced.after (fun hzero => hreach.delta_zero ?_) timestamp value r
    rw [hreach.numRead_eq] at hzero
    exact length_eq_zero_iff.1 hzero
  · simp only [XORIterator.after, ← hreach.window_eq]
  · simp [XORIterator.after, hreach.numRead_eq]

theorem XORIterator.avail_ofPtr {mem : ℕ → Byte} {size k : ℕ} {data : List Byte}
    (hmem : ∀ (i : ℕ) (h : i < data.length), mem (2 + i) = data[i])
    (hdata : ofBytes data = code ++ List.replicate k false) (hsize : 2 + data.length ≤ size) :
    (ofPtr mem size).bstream.Avail code := by
  have hcount : (if 1 ≤ size then 8 else 0) = 8 := if_pos (by omega)
  have hlen := congrArg List.length hdata
  rw [length_ofBytes, length_append, length_replicate] at hlen
  refine ⟨?_, ?_, fun i hi => ?_⟩
  · simp [ofPtr, popFront, BitReader.ofPtr, hcount]
  · simp only [ofPtr, popFront, BitReader.ofPtr, pos, hcount]
    omega
  · have hi' : i < (ofBytes data).length := by
      rw [hdata, length_append]
      omega
    have hbits : (ofBytes data)[i] = code[i] := by
      simp only [hdata]
      rw [getElem_append_left hi]
    have hdiv : (8 * (0 + 1 + 1) + (8 - 8) + i) / 8 = 2 + i / 8 := by omega
    have hmod : (8 * (0 + 1 + 1) + (8 - 8) + i) % 8 = i % 8 := by omega
    simp only [ofPtr, popFront, BitReader.ofPtr, pos, bitAt, hcount, hdiv, hmod]
    rw [← hbits, getElem_ofBytes data i hi' (by omega), hmem]

theorem Decodes.drain_eq {samples : List Sample} {a : XORAppender} {window : ℕ × ℕ}
    (h : Decodes code samples a window) {mem : ℕ → Byte} {size k : ℕ} {data : List Byte}
    (hn : samples.length < 65536)
    (hcount : ∀ (i : ℕ) (hi : i < 2), mem i = (Endian.countBytes samples.length)[i])
    (hmem : ∀ (i : ℕ) (h : i < data.length), mem (2 + i) = data[i])
    (hdata : ofBytes data = code ++ List.replicate k false) (hsize : 2 + data.length ≤ size) :
    ∃ it, (XORIterator.ofPtr mem size).drain = some (samples, it) ∧
      it.Reached samples a window := by
  have hav := XORIterator.avail_ofPtr hmem hdata hsize
  have htotal : (XORIterator.ofPtr mem size).numTotal = samples.length := by
    simp only [XORIterator.ofPtr, hcount 0 (by omega), hcount 1 (by omega),
      Endian.countBytes, getElem_cons_zero, getElem_cons_succ, BitVec.toNat_ofNat]
    omega
  rw [← append_nil code] at hav
  obtain ⟨it, hsteps, hreach, htot, -⟩ :=
    h _ [] (XORIterator.fresh_ofPtr mem size) htotal.ge hav
  refine ⟨it, ?_, hreach⟩
  -- All samples are read, so the next call returns `false`.
  have hstop : it.next = (false, it) := by
    unfold XORIterator.next
    rw [if_pos (Or.inr (by rw [hreach.numRead_eq, htot, htotal]))]
  have hcollect := hsteps.collect_eq 1
  rw [XORIterator.drain, htotal]
  simp only [XORIterator.ofPtr, Nat.sub_zero] at hcollect ⊢
  rw [Nat.add_comm samples.length 1, hcollect, XORIterator.collect, hstop]
  simp

namespace XORChunk

variable {samples : List Sample} {a : XORAppender} {s : BitStream} {header : List Byte}

theorem drain_of_bytes {code : List Bool} {window : ℕ × ℕ} (hd : Decodes code samples a window)
    (hn : samples.length < 65536) {bytes data : List Byte} {k : ℕ}
    (hbytes : bytes = Endian.countBytes samples.length ++ data)
    (hdata : ofBytes data = code ++ List.replicate k false) (junk : ℕ → Byte) {size : ℕ}
    (hsize : bytes.length ≤ size) :
    ∃ it, (XORIterator.ofPtr (memory bytes junk) size).drain = some (samples, it) ∧
      it.Reached samples a window := by
  have hlen : (Endian.countBytes samples.length).length = 2 := rfl
  rw [hbytes, length_append, hlen] at hsize
  refine hd.drain_eq hn (fun i hi => ?_) (fun i hi => ?_) hdata hsize
  · rw [memory, hbytes, getD_eq_getElem?_getD, getElem?_append_left (by omega),
      getElem?_eq_getElem (by omega)]
    rfl
  · rw [memory, hbytes, getD_eq_getElem?_getD, getElem?_append_right (by omega),
      hlen, Nat.add_sub_cancel_left, getElem?_eq_getElem hi, Option.getD_some]

theorem bytes_of_carries {n : ℕ} {code : List Bool} (hs : s.Carries header n code) :
    ∃ data k, s.bytes = Endian.countBytes n ++ data ∧
      ofBytes data = code ++ List.replicate k false := by
  obtain ⟨data, k, hk, hstream, hdata⟩ := hs.exists_stream
  refine ⟨data, k, ?_, hdata⟩
  rw [BitStream.bytes, hstream, hs.headerSize_eq, append_assoc, drop_left]

def Encoded (header : List Byte) (samples : List Sample) (a : XORAppender)
    (s : BitStream) : Prop :=
  ∃ code window, s.Carries header samples.length code ∧ Decodes code samples a window ∧
    samples.length ≤ code.length ∧ (samples = [] → code = [])

theorem encoded_initial (headerSize : ℕ) :
    Encoded (List.replicate headerSize 0#8) [] XORAppender.initial
      (ofHeaderSize headerSize) := by
  refine ⟨[], (0, 0), ⟨by simp [ofHeaderSize, BitStream.ofSize], ?_, ?_, 0, by omega, ?_⟩,
    decodes_nil, le_rfl, fun _ => rfl⟩
  · simp [ofHeaderSize, BitStream.ofSize, Endian.countBytes]
  · simp [ofHeaderSize, BitStream.ofSize]
  · simp only [ofHeaderSize, BitStream.ofSize, append_nil, replicate_zero]
    rw [Nat.add_comm, replicate_add]
    rfl

theorem Encoded.append (h : Encoded header samples a s) (hn : samples.length < 65536)
    (timestamp value : Word) :
    Encoded header (samples ++ [(timestamp, value)]) (a.append s timestamp value).1
      (a.append s timestamp value).2 := by
  obtain ⟨code, window, hs, hd, hle, -⟩ := h
  obtain ⟨hfst, hsnd⟩ := XORAppender.append_carries hs hn a timestamp value
  have hd' := hd.append timestamp value
  have hpos := a.length_sampleCode_pos samples.length timestamp value
  rw [← hfst] at hd'
  refine ⟨_, _, ?_, hd', ?_, by simp⟩
  · rw [length_append, length_singleton]
    exact hsnd
  · simp only [length_append, length_singleton]
    omega

theorem Encoded.drain_eq (h : Encoded header samples a s) (hn : samples.length < 65536)
    (junk : ℕ → Byte) {size : ℕ} (hsize : s.bytes.length ≤ size) :
    ∃ it, (XORIterator.ofPtr (memory s.bytes junk) size).drain = some (samples, it) ∧
      it.err = false := by
  obtain ⟨code, window, hs, hd, -⟩ := h
  obtain ⟨data, k, hbytes, hdata⟩ := bytes_of_carries hs
  obtain ⟨it, hdrain, hreach⟩ := drain_of_bytes hd hn hbytes hdata junk hsize
  exact ⟨it, hdrain, hreach.err_eq⟩

theorem length_bytes_le (s : BitStream) : s.bytes.length ≤ s.stream.length := by
  rw [BitStream.bytes, length_drop]
  omega

theorem Encoded.appender (h : Encoded header samples a s) (hn : samples.length < 65536)
    (junk : ℕ → Byte) : ∃ a', appender s junk = .ok a' ∧ Encoded header samples a' s := by
  obtain ⟨code, window, hs, hd, hle, hnil⟩ := h
  obtain ⟨data, k, hbytes, hdata⟩ := bytes_of_carries hs
  obtain ⟨it, hdrain, hreach⟩ :=
    drain_of_bytes hd hn hbytes hdata junk (length_bytes_le s)
  refine ⟨appenderOf s it, ?_, code, window, hs, ?_, hle, hnil⟩
  · simp only [XORChunk.appender, xorIterator, hdrain, hreach.err_eq]
    rfl
  · intro it₀ rest hf htotal hav
    obtain ⟨it', hsteps, hreach', htot, hrest⟩ := hd it₀ rest hf htotal hav
    refine ⟨it', hsteps, ⟨⟨⟨?_, ?_, hreach'.synced.window_le⟩, ?_, ?_⟩, hreach'.window_eq,
      hreach'.numRead_eq, hreach'.err_eq, hreach'.delta_zero⟩, htot, hrest⟩
    · exact hreach'.synced.value_eq.trans hreach.synced.value_eq.symm
    · have hwin := hreach.window_eq.trans hreach'.window_eq.symm
      rw [Prod.mk.injEq] at hwin
      by_cases hzero : numSamples s = 0
      · exact Or.inl (if_pos hzero)
      · exact Or.inr ⟨(if_neg hzero).trans hwin.1, hwin.2⟩
    · exact hreach'.synced.timestamp_eq.trans hreach.synced.timestamp_eq.symm
    · exact hreach'.synced.delta_eq.trans hreach.synced.delta_eq.symm

end XORChunk

/-- What is done to a chunk in write mode: a sample is appended, or the appender
is dropped and created again, over some memory behind the vector. -/
inductive ChunkOp
  | append (timestamp value : Word)
  | reopen (junk : ℕ → Byte)

namespace ChunkOp

def sample? : ChunkOp → Option Sample
  | append timestamp value => some (timestamp, value)
  | reopen _ => none

def run (p : XORAppender × BitStream) : ChunkOp → Except TSDBException (XORAppender × BitStream)
  | append timestamp value => .ok (p.1.append p.2 timestamp value)
  | reopen junk => (appender p.2 junk).map fun a => (a, p.2)

def runAll (headerSize : ℕ) (junk : ℕ → Byte) (ops : List ChunkOp) :
    Except TSDBException (XORAppender × BitStream) :=
  (reopen junk :: ops).foldlM run (XORAppender.initial, ofHeaderSize headerSize)

theorem run_encoded {header : List Byte} {samples : List Sample}
    {p : XORAppender × BitStream} (h : XORChunk.Encoded header samples p.1 p.2)
    (hn : samples.length < 65536) (op : ChunkOp) :
    ∃ p', op.run p = .ok p' ∧
      XORChunk.Encoded header (samples ++ op.sample?.toList) p'.1 p'.2 := by
  cases op with
  | append timestamp value => exact ⟨_, rfl, h.append hn timestamp value⟩
  | reopen junk =>
    obtain ⟨a, ha, henc⟩ := h.appender hn junk
    refine ⟨(a, p.2), ?_, by simpa [sample?] using henc⟩
    simp only [run, ha]
    rfl

theorem foldlM_encoded {header : List Byte} (ops : List ChunkOp) {samples : List Sample}
    {p : XORAppender × BitStream} (h : XORChunk.Encoded header samples p.1 p.2)
    (hn : (samples ++ ops.filterMap sample?).length < 65536) :
    ∃ p', ops.foldlM run p = .ok p' ∧
      XORChunk.Encoded header (samples ++ ops.filterMap sample?) p'.1 p'.2 := by
  induction ops generalizing samples p with
  | nil => exact ⟨p, rfl, by simpa using h⟩
  | cons op ops ih =>
    have hsplit : samples ++ (op :: ops).filterMap sample? =
        (samples ++ op.sample?.toList) ++ ops.filterMap sample? := by
      rw [append_assoc, filterMap_cons]
      cases op <;> rfl
    have hle : samples.length < 65536 := by
      rw [length_append] at hn
      omega
    obtain ⟨p₁, hrun, henc⟩ := run_encoded h hle op
    rw [hsplit] at hn ⊢
    obtain ⟨p₂, hruns, henc₂⟩ := ih henc hn
    refine ⟨p₂, ?_, henc₂⟩
    rw [foldlM_cons, hrun]
    exact hruns

end ChunkOp

/-- The round trip of the XOR codec. Whatever samples are appended, and whenever
the appender is created anew, iterating over the chunk gives back the samples
and then stops without an error, both for the chunk itself and for a chunk in
read mode over its bytes. -/
theorem xorChunk_roundTrip (headerSize : ℕ) (junk : ℕ → Byte) (ops : List ChunkOp)
    (hlen : (ops.filterMap ChunkOp.sample?).length ≤ 65535) :
    ∃ a s, ChunkOp.runAll headerSize junk ops = .ok (a, s) ∧ ∀ junk' : ℕ → Byte,
      (∃ it, (xorIterator s junk').drain =
          some (ops.filterMap ChunkOp.sample?, it) ∧ it.err = false) ∧
      ∃ it, (readIterator s.bytes junk').drain =
          some (ops.filterMap ChunkOp.sample?, it) ∧ it.err = false := by
  have hlt : (ops.filterMap ChunkOp.sample?).length < 65536 := Nat.lt_succ_of_le hlen
  obtain ⟨⟨a, s⟩, hrun, henc⟩ := ChunkOp.foldlM_encoded (.reopen junk :: ops)
    (p := (XORAppender.initial, ofHeaderSize headerSize))
    (encoded_initial headerSize) hlt
  refine ⟨a, s, hrun, fun junk' => ⟨?_, ?_⟩⟩
  · exact henc.drain_eq hlt junk' (length_bytes_le s)
  · exact henc.drain_eq hlt junk' le_rfl

/-- Three samples, with the appender created anew after the first and the second. -/
theorem xorChunk_roundTrip_reopened :
    let ops : List ChunkOp := [.append 5#64 1#64, .reopen fun _ => 0xff#8,
      .append 9#64 3#64, .reopen fun _ => 0#8, .append 14#64 0#64]
    (ops.filterMap ChunkOp.sample?).length ≤ 65535 ∧
      ∃ a s, ChunkOp.runAll 11 (fun _ => 0#8) ops = .ok (a, s) ∧ ∀ junk' : ℕ → Byte,
        (∃ it, (xorIterator s junk').drain =
            some (ops.filterMap ChunkOp.sample?, it) ∧ it.err = false) ∧
        ∃ it, (readIterator s.bytes junk').drain =
            some (ops.filterMap ChunkOp.sample?, it) ∧ it.err = false :=
  ⟨by decide, xorChunk_roundTrip 11 (fun _ => 0#8) _ (by decide)⟩

end PromTCS
