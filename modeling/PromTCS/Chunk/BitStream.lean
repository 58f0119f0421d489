import PromTCS.Base.Endian
import PromTCS.Lib.BitString

/-!
# The bit stream in write mode

`chunk/BitStream` in write mode appends bits to a byte vector. `tail_count` is
the number of bits used in the last byte, zero when that byte is full, and a
write ors its bits into the unused part of that byte before it pushes a new one.
`Holds s bs` says that the stream is the bit list `bs` followed by the zero
padding of its last byte; every write function appends to that list.
-/

namespace PromTCS

open List

open BitString

/-- The write-mode fields of `BitStream`; `endPos` is the source's `end`. -/
structure BitStream where
  stream : List Byte
  tailCount : ℕ
  endPos : ℕ
  headerSize : ℕ
deriving DecidableEq, Repr

namespace BitStream

/-- `BitStream(size, header_size)`: zero bytes, all of them full. -/
def ofSize (size headerSize : ℕ) : BitStream where
  stream := List.replicate (size + headerSize) 0#8
  tailCount := 0
  endPos := size + headerSize
  headerSize := headerSize

variable (s : BitStream)

/-- `stream.push_back(byte); ++end`. -/
def pushBack (byte : Byte) : BitStream :=
  { s with stream := s.stream ++ [byte], endPos := s.endPos + 1 }

/-- `stream.back() |= byte`. -/
def orBack (byte : Byte) : BitStream :=
  { s with stream := s.stream.dropLast ++ [s.stream.getLastD 0#8 ||| byte] }

/-- The common first step of `write_bit` and `write_byte`: a zero byte is pushed
when the last byte is full. -/
def reserve : BitStream :=
  if s.tailCount = 0 then s.pushBack 0#8 else s

def writeBit (bit : Bool) : BitStream :=
  let s' := s.reserve
  let tail := s.tailCount + 1
  let s' := if bit then s'.orBack (1#8 <<< (8 - tail)) else s'
  { s' with tailCount := tail % 8 }

def writeByte (byte : Byte) : BitStream :=
  let s' := s.reserve.orBack (byte >>> s.tailCount)
  if s.tailCount ≠ 0 then s'.pushBack (byte <<< (8 - s.tailCount)) else s'

/-- The two loops of `write_bits` over the left-aligned `bits`: whole bytes
while at least eight bits are left, then single bits. -/
def writeBitsLoop : BitStream → Word → ℕ → BitStream
  | s, _, 0 => s
  | s, bits, num + 8 =>
    writeBitsLoop (s.writeByte ((bits >>> 56).setWidth 8)) (bits <<< 8) num
  | s, bits, num + 1 =>
    writeBitsLoop (s.writeBit (bits >>> 63 == 1#64)) (bits <<< 1) num

/-- `write_bits(bits, num)`: the low `num` bits of `bits`. -/
def writeBits (bits : Word) (num : ℕ) : BitStream :=
  writeBitsLoop s (bits <<< (64 - num)) num

/-- The loop `for (i = 0; i < encoded; i++) write_byte(temp[i])`. -/
def writeBytes (bytes : List Byte) : BitStream :=
  bytes.foldl writeByte s

/-- `bytes_ptr()`: the vector from the end of the header on. -/
def bytes : List Byte :=
  s.stream.drop s.headerSize

section HeaderSize

variable (s : BitStream)

@[simp] theorem headerSize_reserve : s.reserve.headerSize = s.headerSize := by
  unfold reserve
  split <;> rfl

@[simp] theorem headerSize_writeBit (bit : Bool) :
    (s.writeBit bit).headerSize = s.headerSize := by
  cases bit <;> simp [writeBit, orBack]

@[simp] theorem headerSize_writeByte (byte : Byte) :
    (s.writeByte byte).headerSize = s.headerSize := by
  unfold writeByte
  split <;> simp [pushBack, orBack]

theorem headerSize_writeBitsLoop (bits : Word) (num : ℕ) :
    (s.writeBitsLoop bits num).headerSize = s.headerSize := by
  fun_induction BitStream.writeBitsLoop s bits num with
  | case1 => rfl
  | case2 s bits num ih => rw [ih, headerSize_writeByte]
  | case3 s bits num _ ih => rw [ih, headerSize_writeBit]

@[simp] theorem headerSize_writeBits (bits : Word) (num : ℕ) :
    (s.writeBits bits num).headerSize = s.headerSize :=
  headerSize_writeBitsLoop s _ _

@[simp] theorem headerSize_writeBytes (bytes : List Byte) :
    (s.writeBytes bytes).headerSize = s.headerSize := by
  unfold writeBytes
  induction bytes generalizing s with
  | nil => rfl
  | cons x bytes ih => rw [foldl_cons, ih, headerSize_writeByte]

end HeaderSize

structure Holds (s : BitStream) (bs : List Bool) : Prop where
  tailCount_eq : s.tailCount = bs.length % 8
  endPos_eq : s.endPos = s.stream.length
  bits_eq : ∃ k < 8, ofBytes s.stream = bs ++ List.replicate k false

variable {s : BitStream} {bs code : List Bool} {header : List Byte} {n : ℕ}

theorem Holds.length_stream (h : s.Holds bs) : s.stream.length = (bs.length + 7) / 8 := by
  obtain ⟨k, hk, hbits⟩ := h.bits_eq
  have hlen := congrArg List.length hbits
  simp only [length_ofBytes, length_append, length_replicate] at hlen
  omega

theorem Holds.ofBytes_eq (h : s.Holds bs) (htail : s.tailCount = 0) : ofBytes s.stream = bs := by
  obtain ⟨k, hk, hbits⟩ := h.bits_eq
  have hlen := congrArg List.length hbits
  simp only [length_ofBytes, length_append, length_replicate] at hlen
  have hmod := h.tailCount_eq
  have hzero : k = 0 := by omega
  rw [hbits, hzero, replicate_zero, append_nil]

theorem ofBytes_orBack {byte : Byte} {cs : List Bool} {k : ℕ}
    (hs : ofBytes s.stream = bs ++ List.replicate k false) (hpos : 0 < k) (hk : k ≤ 8)
    (hbyte : ofBitVec byte = List.replicate (8 - k) false ++ cs) :
    ofBytes (s.orBack byte).stream = bs ++ cs := by
  have hcs : cs.length = k := by
    have h := congrArg List.length hbyte
    simp only [length_ofBitVec, length_append, length_replicate] at h
    omega
  cases hstream : s.stream using List.reverseRecOn with
  | nil =>
    have h := congrArg List.length hs
    simp only [hstream, length_ofBytes, length_nil, length_append,
      length_replicate] at h
    omega
  | append_singleton l x =>
    rw [hstream, ofBytes_concat] at hs
    obtain ⟨as, hbs, hx⟩ : ∃ as, bs = ofBytes l ++ as ∧
        ofBitVec x = as ++ List.replicate k false := by
      rcases append_eq_append_iff.1 hs with ⟨as, h₁, h₂⟩ | ⟨as, h₁, h₂⟩
      · exact ⟨as, h₁, h₂⟩
      · have hlen := congrArg List.length h₂
        simp only [length_append, length_replicate, length_ofBitVec] at hlen
        have has : as = [] := length_eq_zero_iff.1 (by omega)
        subst has
        refine ⟨[], by simpa using h₁.symm, by simpa using h₂.symm⟩
    have hlen := congrArg List.length hx
    simp only [length_append, length_replicate, length_ofBitVec] at hlen
    have hor := ofBitVec_or_of_append (y := byte) hx
      (by rw [hbyte, show as.length = 8 - k by omega]) hcs
    simp only [orBack, hstream, dropLast_concat, getLastD_concat,
      ofBytes_concat, hor, hbs, append_assoc]

theorem Holds.tailCount_lt (h : s.Holds bs) : s.tailCount < 8 := by
  rw [h.tailCount_eq]
  exact Nat.mod_lt _ (by omega)

@[simp] theorem tailCount_reserve (s : BitStream) :
    s.reserve.tailCount = s.tailCount := by
  unfold reserve
  split <;> rfl

theorem Holds.endPos_reserve (h : s.Holds bs) : s.reserve.endPos = s.reserve.stream.length := by
  unfold reserve
  split
  · simp [pushBack, h.endPos_eq]
  · exact h.endPos_eq

theorem Holds.ofBytes_reserve (h : s.Holds bs) :
    ofBytes s.reserve.stream = bs ++ List.replicate (8 - s.tailCount) false := by
  unfold reserve
  split
  · rename_i htail
    simp [pushBack, ofBytes_concat, ofBitVec_zero, h.ofBytes_eq htail, htail]
  · rename_i htail
    obtain ⟨k, hk, hbits⟩ := h.bits_eq
    have hlen := congrArg List.length hbits
    simp only [length_ofBytes, length_append, length_replicate] at hlen
    have hmod := h.tailCount_eq
    rw [hbits, show k = 8 - s.tailCount by omega]

theorem Holds.reserve_ne_nil (h : s.Holds bs) : s.reserve.stream ≠ [] := by
  intro hnil
  have hlen := congrArg List.length h.ofBytes_reserve
  have htail := h.tailCount_lt
  simp only [hnil, ofBytes_nil, length_nil, length_append,
    length_replicate] at hlen
  omega

@[simp] theorem tailCount_orBack (s : BitStream) (byte : Byte) :
    (s.orBack byte).tailCount = s.tailCount := rfl

@[simp] theorem endPos_orBack (s : BitStream) (byte : Byte) :
    (s.orBack byte).endPos = s.endPos := rfl

theorem length_orBack (byte : Byte) (h : s.stream ≠ []) :
    (s.orBack byte).stream.length = s.stream.length := by
  have hpos := length_pos_iff.2 h
  simp only [orBack, length_append, length_dropLast, length_singleton]
  omega

theorem Holds.writeBit (h : s.Holds bs) (bit : Bool) : (s.writeBit bit).Holds (bs ++ [bit]) := by
  have htail := h.tailCount_lt
  have hres := h.ofBytes_reserve
  have hsplit : List.replicate (8 - s.tailCount) false =
      false :: List.replicate (7 - s.tailCount) false := by
    rw [show 8 - s.tailCount = (7 - s.tailCount) + 1 by omega, replicate_succ]
  refine ⟨?_, ?_, 7 - s.tailCount, by omega, ?_⟩
  · simp [BitStream.writeBit, h.tailCount_eq]
  · cases bit with
    | false => exact h.endPos_reserve
    | true =>
      change s.reserve.endPos = (s.reserve.orBack _).stream.length
      rw [length_orBack _ h.reserve_ne_nil, h.endPos_reserve]
  · cases bit with
    | false =>
      change ofBytes s.reserve.stream = _
      rw [hres, hsplit, append_assoc, singleton_append]
    | true =>
      change ofBytes (s.reserve.orBack _).stream = _
      rw [append_assoc, singleton_append]
      refine ofBytes_orBack hres (by omega) (by omega) ?_
      rw [ofBitVec_one_shiftLeft ⟨s.tailCount, htail⟩,
        show 8 - (8 - s.tailCount) = s.tailCount by omega]

theorem Holds.writeByte (h : s.Holds bs) (byte : Byte) :
    (s.writeByte byte).Holds (bs ++ ofBitVec byte) := by
  have htail := h.tailCount_lt
  have hfill : ofBytes (s.reserve.orBack (byte >>> s.tailCount)).stream =
      bs ++ (ofBitVec byte).take (8 - s.tailCount) := by
    refine ofBytes_orBack h.ofBytes_reserve (by omega) (by omega) ?_
    rw [ofBitVec_ushiftRight byte htail.le, Nat.sub_sub_self htail.le]
  have hend : s.reserve.endPos =
      (s.reserve.orBack (byte >>> s.tailCount)).stream.length := by
    rw [length_orBack _ h.reserve_ne_nil, h.endPos_reserve]
  have hmod : s.tailCount = (bs ++ ofBitVec byte).length % 8 := by
    simp [h.tailCount_eq]
  unfold BitStream.writeByte
  by_cases hzero : s.tailCount = 0
  · rw [if_neg (by simp [hzero])]
    refine ⟨by simpa using hmod, hend, 0, by omega, ?_⟩
    rw [hfill, hzero, take_of_length_le (by simp)]
    simp
  · rw [if_pos hzero]
    refine ⟨by simpa [pushBack] using hmod, by simp [pushBack, hend], 8 - s.tailCount,
      by omega, ?_⟩
    simp only [pushBack, ofBytes_concat, hfill]
    rw [ofBitVec_shiftLeft byte (by omega), append_assoc,
      ← append_assoc (List.take _ _), take_append_drop, append_assoc]

theorem ofBitVec_topByte (bits : Word) :
    ofBitVec ((bits >>> 56).setWidth 8) = (ofBitVec bits).take 8 := by
  rw [ofBitVec_setWidth _ (by omega), ofBitVec_ushiftRight bits (by omega),
    drop_append_of_le_length (by simp), drop_eq_nil_of_le (by simp),
    nil_append]

theorem shiftRight_beq_one (bits : Word) : (bits >>> 63 == 1#64) = bits.getMsbD 0 := by
  have hlt := bits.isLt
  rw [BitVec.getMsbD_last, Bool.eq_iff_iff, beq_iff_eq, decide_eq_true_iff,
    ← BitVec.toNat_inj, BitVec.toNat_ushiftRight, Nat.shiftRight_eq_div_pow]
  simp only [BitVec.toNat_ofNat]
  omega

theorem take_one_ofBitVec (bits : Word) :
    (ofBitVec bits).take 1 = [bits.getMsbD 0] := by
  simp [ofBitVec, ofFn_succ]

theorem Holds.writeBitsLoop (h : s.Holds bs) (bits : Word) (num : ℕ) (hnum : num ≤ 64) :
    (writeBitsLoop s bits num).Holds (bs ++ (ofBitVec bits).take num) := by
  fun_induction BitStream.writeBitsLoop s bits num generalizing bs with
  | case1 s bits => simpa using h
  | case2 s bits num ih =>
    have hrest := ih (h.writeByte _) (by omega)
    rw [ofBitVec_topByte, ofBitVec_shiftLeft bits (by omega),
      take_append_of_le_length (by simp; omega), append_assoc] at hrest
    change ((s.writeByte _).writeBitsLoop _ num).Holds (bs ++ List.take (num + 8) _)
    rwa [Nat.add_comm num 8, take_add]
  | case3 s bits num hlt ih =>
    have hrest := ih (h.writeBit _) (by omega)
    rw [shiftRight_beq_one, ofBitVec_shiftLeft bits (by omega),
      take_append_of_le_length (by simp; omega), append_assoc] at hrest
    change ((s.writeBit _).writeBitsLoop _ num).Holds (bs ++ List.take (num + 1) _)
    rwa [Nat.add_comm num 1, take_add, take_one_ofBitVec, shiftRight_beq_one]

theorem Holds.writeBits (h : s.Holds bs) (bits : Word) (num : ℕ) (hnum : num ≤ 64) :
    (s.writeBits bits num).Holds (bs ++ (ofBitVec bits).drop (64 - num)) := by
  have hloop := h.writeBitsLoop (bits <<< (64 - num)) num hnum
  rwa [ofBitVec_shiftLeft bits (by omega), take_append_of_le_length (by simp; omega),
    take_of_length_le (by simp; omega)] at hloop

theorem Holds.writeBytes (h : s.Holds bs) (bytes : List Byte) :
    (s.writeBytes bytes).Holds (bs ++ ofBytes bytes) := by
  induction bytes generalizing s bs with
  | nil => simpa [BitStream.writeBytes] using h
  | cons x bytes ih =>
    have hrest := ih (h.writeByte x)
    rwa [append_assoc, ← ofBytes_cons] at hrest

structure Carries (s : BitStream) (header : List Byte) (n : ℕ) (code : List Bool) :
    Prop where
  headerSize_eq : s.headerSize = header.length
  holds : s.Holds (ofBytes (header ++ Endian.countBytes n) ++ code)

section

variable (h : s.Carries header n code)
include h

theorem Carries.exists_stream :
    ∃ data k, k < 8 ∧ s.stream = header ++ Endian.countBytes n ++ data ∧
      ofBytes data = code ++ List.replicate k false := by
  obtain ⟨k, hk, hbits⟩ := h.holds.bits_eq
  rw [append_assoc] at hbits
  obtain ⟨data, hstream, hdata⟩ := exists_of_ofBytes_eq_append hbits
  exact ⟨data, k, hk, hstream, hdata⟩

theorem Carries.endPos_eq :
    s.endPos = header.length + 2 + (code.length + 7) / 8 := by
  rw [h.holds.endPos_eq, h.holds.length_stream]
  simp only [Endian.countBytes, length_append, length_ofBytes, length_cons,
    length_nil]
  omega

theorem Carries.getUint16BigEndian_eq (hn : n < 65536) :
    Endian.getUint16BigEndian s.stream s.headerSize = n := by
  obtain ⟨data, k, hk, hstream, -⟩ := h.exists_stream
  rw [hstream, h.headerSize_eq, Endian.getUint16BigEndian_append _ _ hn]

theorem Carries.putUint16BigEndian (m : ℕ) :
    { s with stream := Endian.putUint16BigEndian s.stream s.headerSize m }.Carries
      header m code := by
  obtain ⟨data, k, hk, hstream, hdata⟩ := h.exists_stream
  have hput : Endian.putUint16BigEndian s.stream s.headerSize m =
      header ++ Endian.countBytes m ++ data := by
    rw [hstream, h.headerSize_eq, append_assoc]
    exact Endian.putUint16BigEndian_append _ _ _ _ _
  refine ⟨h.headerSize_eq, ?_, ?_, k, hk, ?_⟩
  · rw [h.holds.tailCount_eq]
    simp [Endian.countBytes]
  · change s.endPos = (Endian.putUint16BigEndian s.stream s.headerSize m).length
    rw [hput, h.holds.endPos_eq, hstream]
    simp [Endian.countBytes]
  · simp only [hput, ofBytes_append, hdata, append_assoc]

end

end BitStream

end PromTCS
