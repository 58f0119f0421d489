import PromTCS.Chunk.XORChunk

/-!
# Items of a bit stream

A stream is written by any sequence of `write_bit`, `write_byte` and `write_bits`
and read by the matching sequence. There are two kinds of reads: those of the
reader, which consume the stream, and those that are given a bit position and
keep `index_` and `head_count_` in local variables. At a position every read is
the consuming one over these counters, so both follow from what is consumed.
The bytes of a stream are counted by an `int`, and a bit position is an `int` that
is not negative.
-/

namespace PromTCS

open List Consumes BitString BitReader XORChunk

namespace BitReader

section Positional

variable (mem : ℕ → Byte) (endPos : ℕ) (pos : Fin (2 ^ 31))

/-- `read_bit(pos)`. -/
def readBitAt : Except TSDBException Bool :=
  if pos.val / 8 ≥ endPos then .error eof
  else .ok ((mem (pos.val / 8) <<< (pos.val % 8)) &&& 0x80#8 == 0x80#8)

/-- `read_byte(pos)`. -/
def readByteAt : Except TSDBException Byte :=
  if pos.val / 8 ≥ endPos then .error eof
  else
    let temp := mem (pos.val / 8) <<< (pos.val % 8)
    if pos.val % 8 ≠ 0 ∧ pos.val / 8 + 1 ≥ endPos then .error eof
    else .ok (temp ||| mem (pos.val / 8 + 1) >>> (8 - pos.val % 8))

/-- The counters `index_` and `head_count_` that `read_bits(pos, num)` starts with. -/
def counters (pos : ℕ) : BitReader :=
  ⟨mem, 8 - pos % 8, pos / 8, endPos⟩

/-- `read_bits(pos, num)`: `read_byte_helper` is `read_byte` over the local counters. -/
def readBitsAt (num : ℕ) : Except TSDBException Word :=
  (readBits num (counters mem endPos pos)).1

end Positional

variable (mem : ℕ → Byte) (endPos pos : ℕ)

theorem pos_counters : (counters mem endPos pos).pos = pos := by
  change 8 * (pos / 8) + (8 - (8 - pos % 8)) = pos
  omega

theorem prepare_counters : prepare (counters mem endPos pos) =
    (if pos / 8 ≥ endPos then .error eof else .ok (), counters mem endPos pos) := by
  have hcount : (counters mem endPos pos).headCount ≠ 0 := by
    change 8 - pos % 8 ≠ 0
    omega
  unfold prepare
  rw [get_bind_apply]
  by_cases h : pos / 8 ≥ endPos
  · have hindex : (counters mem endPos pos).index ≥ (counters mem endPos pos).endPos := h
    rw [if_pos h, if_pos hindex]
    rfl
  · have hindex : ¬ (counters mem endPos pos).index ≥ (counters mem endPos pos).endPos := h
    simp only [if_neg h, if_neg hindex, if_neg hcount]
    rfl

theorem readBitAt_eq (pos : Fin (2 ^ 31)) :
    readBitAt mem endPos pos = (readBit (counters mem endPos pos)).1 := by
  have hprep := prepare_counters mem endPos pos
  have hshift : 8 - (8 - pos.val % 8) = pos.val % 8 := by omega
  unfold readBitAt readBit
  split_ifs at hprep ⊢ with h
  · rw [bind_apply_of_error hprep]
  · rw [bind_apply_of_ok hprep]
    change _ = Except.ok ((mem (pos.val / 8) <<< (8 - (8 - pos.val % 8))) &&& 0x80#8 == 0x80#8)
    rw [hshift]

theorem readByteAt_eq (pos : Fin (2 ^ 31)) :
    readByteAt mem endPos pos = (readByte (counters mem endPos pos)).1 := by
  have hprep := prepare_counters mem endPos pos
  have hshift : 8 - (8 - pos.val % 8) = pos.val % 8 := by omega
  have hfull : (8 - pos.val % 8 ≠ 8) = (pos.val % 8 ≠ 0) := by
    rw [eq_iff_iff]
    omega
  unfold readByteAt readByte
  by_cases h : pos.val / 8 ≥ endPos
  · rw [if_pos h] at hprep ⊢
    rw [bind_apply_of_error hprep]
  · rw [if_neg h] at hprep ⊢
    rw [bind_apply_of_ok hprep, get_bind_apply]
    simp only [counters, cur, hshift, hfull]
    split_ifs <;> rfl

theorem popFront_iterate_ofPtr (hpos : 0 < endPos) (n : ℕ) :
    popFront^[n] (ofPtr mem endPos) = counters mem endPos (8 * n) := by
  induction n with
  | zero => simp [ofPtr, counters, Nat.one_le_iff_ne_zero, hpos.ne']
  | succ n ih =>
    rw [Function.iterate_succ_apply', ih]
    simp [popFront, counters]

theorem avail_counters {s : BitStream} {bs cs : List Bool} (h : s.Holds (bs ++ cs))
    (junk : ℕ → Byte) : (counters (memory s.stream junk) s.endPos bs.length).Avail cs := by
  obtain ⟨k, -, hbits⟩ := h.bits_eq
  have hlen := congrArg List.length hbits
  simp only [length_ofBytes, length_append, length_replicate] at hlen
  refine ⟨Nat.sub_le _ _, ?_, fun i hi => ?_⟩
  · rw [pos_counters]
    change _ ≤ 8 * s.endPos
    rw [h.endPos_eq]
    omega
  · have hbyte : (bs.length + i) / 8 < s.stream.length := by omega
    have hget := getElem_ofBytes s.stream (bs.length + i) (by rw [length_ofBytes]; omega) hbyte
    rw [pos_counters, bitAt]
    change (memory s.stream junk _).getMsbD _ = _
    rw [memory, getD_eq_getElem?_getD, getElem?_eq_getElem hbyte, Option.getD_some, ← hget]
    simp [hbits, hi]

end BitReader

/-- A write to the stream. -/
inductive BitItem
  | bit (b : Bool)
  | byte (x : Byte)
  | bits (x : Word) (num : ℕ) (hpos : 0 < num) (hle : num ≤ 64)
deriving DecidableEq, Repr

namespace BitItem

def write (s : BitStream) : BitItem → BitStream
  | bit b => s.writeBit b
  | byte x => s.writeByte x
  | bits x num _ _ => s.writeBits x num

def numBits : BitItem → ℕ
  | bit _ => 1
  | byte _ => 8
  | bits _ num _ _ => num

/-- The item with the bits that are written: of a value, the low `num` ones. -/
def written : BitItem → BitItem
  | bits x num hpos hle => bits (mask x num) num hpos hle
  | item => item

/-- The matching read; it does not look at what the item holds. -/
def read : BitItem → ReadM BitItem
  | bit _ => do return bit (← readBit)
  | byte _ => do return byte (← readByte)
  | bits _ num hpos hle => do return bits (← readBits num) num hpos hle

/-- The matching read at the bit position `pos`. -/
def readAt (mem : ℕ → Byte) (endPos : ℕ) (pos : Fin (2 ^ 31)) :
    BitItem → Except TSDBException BitItem
  | bit _ => (readBitAt mem endPos pos).map bit
  | byte _ => (readByteAt mem endPos pos).map byte
  | bits _ num hpos hle => (readBitsAt mem endPos pos num).map (bits · num hpos hle)

def code : BitItem → List Bool
  | bit b => [b]
  | byte x => ofBitVec x
  | bits x num _ _ => XORAppender.lowBits num x

theorem numBits_pos (item : BitItem) : 0 < item.numBits := by
  cases item with
  | bit b => exact Nat.one_pos
  | byte x => exact Nat.succ_pos 7
  | bits x num hpos hle => exact hpos

theorem length_code (item : BitItem) : item.code.length = item.numBits := by
  cases item with
  | bit b => rfl
  | byte x => exact length_ofBitVec x
  | bits x num hpos hle => exact XORAppender.length_lowBits hle x

theorem length_flatMap_code (items : List BitItem) :
    (items.flatMap code).length = (items.map numBits).sum := by
  rw [length_flatMap]
  simp only [length_code]

theorem holds_write {s : BitStream} {bs : List Bool} (h : s.Holds bs) (item : BitItem) :
    (write s item).Holds (bs ++ item.code) := by
  cases item with
  | bit b => exact h.writeBit b
  | byte x => exact h.writeByte x
  | bits x num hpos hle => exact h.writeBits x num hle

theorem holds_foldl_write {s : BitStream} {bs : List Bool} (h : s.Holds bs)
    (items : List BitItem) : (items.foldl write s).Holds (bs ++ items.flatMap code) := by
  induction items generalizing s bs with
  | nil => simpa using h
  | cons item items ih =>
    rw [foldl_cons, flatMap_cons, ← append_assoc]
    exact ih (holds_write h item)

theorem holds_ofSize (size headerSize : ℕ) :
    (BitStream.ofSize size headerSize).Holds (List.replicate (8 * (size + headerSize)) false) := by
  refine ⟨?_, ?_, 0, by omega, ?_⟩
  · simp [BitStream.ofSize]
  · simp [BitStream.ofSize]
  · simp [BitStream.ofSize, ofBytes_replicate_zero]

theorem consumes_read (item : BitItem) : Consumes Avail item.read item.code item.written := by
  cases item with
  | bit b => exact (consumes_readBit b).bind_pure
  | byte x => exact (consumes_readByte x).bind_pure
  | bits x num hpos hle =>
    have h := (XORIterator.consumes_lowBits hle x).bind_pure (f := (bits · num hpos hle))
    rwa [← toNat_mask x hle, BitVec.ofNat_toNat, BitVec.setWidth_eq] at h

theorem consumes_mapM_read (items : List BitItem) :
    Consumes Avail (items.mapM read) (items.flatMap code) (items.map written) := by
  induction items with
  | nil => exact Consumes.pure []
  | cons item items ih =>
    rw [mapM_cons, flatMap_cons, map_cons]
    exact (consumes_read item).bind (ih.bind_pure (f := (item.written :: ·)))

theorem fst_bind_pure {α β : Type} (m : ReadM α) (f : α → β) (r : BitReader) :
    ((m >>= fun x => pure (f x)) r).1 = (m r).1.map f := by
  rcases hm : m r with ⟨e | a, r'⟩
  · rw [bind_apply_of_error hm]
    rfl
  · rw [bind_apply_of_ok hm]
    rfl

theorem readAt_eq (mem : ℕ → Byte) (endPos : ℕ) (pos : Fin (2 ^ 31)) (item : BitItem) :
    item.readAt mem endPos pos = (item.read (counters mem endPos pos)).1 := by
  cases item with
  | bit b =>
    rw [readAt, readBitAt_eq]
    exact (fst_bind_pure readBit bit _).symm
  | byte x =>
    rw [readAt, readByteAt_eq]
    exact (fst_bind_pure readByte byte _).symm
  | bits x num hpos hle => exact (fst_bind_pure (readBits num) (bits · num hpos hle) _).symm

end BitItem

open BitItem

/-- Writes to `BitStream(size, header_size)`, of as many bytes as an `int` counts. -/
structure BitWrites where
  size : ℕ
  headerSize : ℕ
  items : List BitItem
  length_lt : size + headerSize + ((items.map numBits).sum + 7) / 8 < 2 ^ 31

namespace BitWrites

variable (w : BitWrites)

/-- The number of bytes before the first item. -/
def start : ℕ := w.size + w.headerSize

def stream : BitStream :=
  w.items.foldl write (BitStream.ofSize w.size w.headerSize)

theorem holds_stream : w.stream.Holds
    (List.replicate (8 * w.start) false ++ w.items.flatMap code) :=
  holds_foldl_write (holds_ofSize w.size w.headerSize) w.items

end BitWrites

/-- The matching reads return the bits that were written, from the first byte after
the header on and at every item's position, whatever lies behind the vector; the
vector is as long as the header and all items need. -/
theorem bitItems_roundTrip (w : BitWrites) (junk : ℕ → Byte) :
    let mem := memory w.stream.stream junk
    w.stream.stream.length = w.start + ((w.items.map numBits).sum + 7) / 8 ∧
      w.stream.endPos = w.stream.stream.length ∧ w.stream.endPos < 2 ^ 31 ∧
      (w.items.mapM read (popFront^[w.start] (ofPtr mem w.stream.endPos))).1 =
        .ok (w.items.map written) ∧
      ∀ before item after, w.items = before ++ item :: after → ∀ pos : Fin (2 ^ 31),
        pos.val = 8 * w.start + (before.map numBits).sum →
          item.readAt mem w.stream.endPos pos = .ok item.written := by
  intro mem
  have hs := w.holds_stream
  have hlen : w.stream.stream.length = w.start + ((w.items.map numBits).sum + 7) / 8 := by
    rw [hs.length_stream, length_append, length_replicate, length_flatMap_code]
    omega
  have hend : w.stream.endPos < 2 ^ 31 := by
    rw [hs.endPos_eq, hlen]
    exact w.length_lt
  refine ⟨hlen, hs.endPos_eq, hend, ?_, fun before item after hitems pos hpos => ?_⟩
  · by_cases hnil : w.items = []
    · rw [hnil]
      rfl
    · have hpos : 0 < w.stream.endPos := by
        obtain ⟨item, items, hitems⟩ := exists_cons_of_ne_nil hnil
        rw [hs.endPos_eq, hlen, hitems, map_cons, sum_cons]
        have := item.numBits_pos
        omega
      have hav := avail_counters hs junk
      rw [length_replicate, ← popFront_iterate_ofPtr _ _ hpos, ← append_nil (flatMap _ _)] at hav
      obtain ⟨r, hrun, -⟩ := consumes_mapM_read _ _ [] hav
      rw [hrun]
  · rw [hitems, flatMap_append, flatMap_cons, ← append_assoc] at hs
    have hav := avail_counters hs junk
    rw [length_append, length_replicate, length_flatMap_code, ← hpos] at hav
    obtain ⟨r, hrun, -⟩ := consumes_read item _ _ hav
    rw [readAt_eq, hrun]

def unalignedWrites : BitWrites where
  size := 0
  headerSize := 2
  items := [bit true, byte 0xA5, bits 0x3ABCD 13 (by decide) (by decide)]
  length_lt := by decide

/-- The value lies across three bytes, of which the last one is not full. -/
theorem bitItems_roundTrip_unaligned :
    let s := unalignedWrites.stream
    let mem := memory s.stream fun _ => 0xFF
    s.stream.length = 5 ∧ (unalignedWrites.items.mapM read (popFront^[2] (ofPtr mem s.endPos))).1 =
      .ok [bit true, byte 0xA5, bits 0xBCD 13 (by decide) (by decide)] ∧
      (bits 0x3ABCD 13 (by decide) (by decide)).readAt mem s.endPos 25 =
        .ok (bits 0xBCD 13 (by decide) (by decide)) := by
  intro s mem
  obtain ⟨hlen, -, -, hread, hat⟩ := bitItems_roundTrip unalignedWrites fun _ => 0xFF
  exact ⟨hlen.trans (by decide), hread, hat [bit true, byte 0xA5] _ [] rfl 25 rfl⟩

end PromTCS
