import PromTCS.Chunk.BitStream
import PromTCS.Lib.Consume

/-!
# The bit stream in read mode

`chunk/BitStream` over a pointer. `head_count` is the number of unread bits of
the byte at `index`, and a read past `end` throws. The memory behind the
pointer is a function: a stream is opened with the size of a vector that
includes its header, and `read_byte` looks at the byte after the one it
finishes, so reads past the data do occur and must be harmless.

`Avail r bs` says that the bits `bs` come next and lie before `end`; the read
functions are described by what they consume.
-/

namespace PromTCS

open List Consumes Endian

open BitString

/-- `base::TSDBException`, by its text. -/
structure TSDBException where
  what : String
deriving DecidableEq, Repr

/-- The read-mode fields of `BitStream`; `endPos` is the source's `end`. -/
structure BitReader where
  mem : ℕ → Byte
  headCount : ℕ
  index : ℕ
  endPos : ℕ

/-- A read: an exception keeps the position reached. -/
abbrev ReadM := ExceptT TSDBException (StateM BitReader)

namespace BitReader

/-- `BitStream(stream_ptr, size)`. -/
def ofPtr (mem : ℕ → Byte) (size : ℕ) : BitReader where
  mem := mem
  headCount := if 1 ≤ size then 8 else 0
  index := 0
  endPos := size

def popFront (r : BitReader) : BitReader :=
  { r with index := r.index + 1 }

def eof : TSDBException := ⟨"bitstream EOF"⟩

/-- The byte at `index`. -/
def cur (r : BitReader) : Byte :=
  r.mem r.index

/-- The common first steps of `read_bit` and `read_byte`. -/
def prepare : ReadM Unit := do
  let r ← get
  if r.index ≥ r.endPos then throw eof
  if r.headCount = 0 then
    set { r with index := r.index + 1 }
    if r.index + 1 ≥ r.endPos then throw eof
    set { r with index := r.index + 1, headCount := 8 }

def readBit : ReadM Bool := do
  prepare
  let r ← get
  set { r with headCount := r.headCount - 1 }
  return (r.cur <<< (8 - r.headCount)) &&& 0x80#8 == 0x80#8

def readByte : ReadM Byte := do
  prepare
  let r ← get
  let temp := r.cur <<< (8 - r.headCount)
  set { r with index := r.index + 1 }
  if r.headCount ≠ 8 ∧ r.index + 1 ≥ r.endPos then throw eof
  return temp ||| r.mem (r.index + 1) >>> r.headCount

/-- `x & ((1 << n) - 1)`. -/
def mask (x : Word) (n : ℕ) : Word :=
  x &&& BitVec.ofNat 64 (2 ^ n - 1)

/-- The part of `read_bits` after its loop, for fewer than eight bits. -/
def readBitsTail (num : ℕ) (result : Word) : ReadM Word := do
  let r ← get
  if r.headCount < num then
    let result := result <<< r.headCount ||| mask (r.cur.setWidth 64) r.headCount
    let num := num - r.headCount
    set { r with index := r.index + 1 }
    if r.index + 1 ≥ r.endPos then throw eof
    set { r with index := r.index + 1, headCount := 8 - num }
    return result <<< num ||| mask ((r.mem (r.index + 1)).setWidth 64 >>> (8 - num)) num
  else
    set { r with headCount := r.headCount - num }
    return result <<< num ||| mask (r.cur.setWidth 64 >>> (r.headCount - num)) num

/-- `read_bits(num)` with the accumulator of its loop. -/
def readBitsLoop : ℕ → Word → ReadM Word
  | num + 8, result => do
    let temp ← readByte
    readBitsLoop num (result <<< 8 ||| temp.setWidth 64)
  | num, result => readBitsTail num result

def readBits (num : ℕ) : ReadM Word :=
  readBitsLoop num 0#64

/-- The loop of `read_unsigned_varint`. Every round reads a byte before `end`,
so the fuel given below is never used up. -/
def readUnsignedVarintLoop : ℕ → Word → ℕ → ReadM Word
  | 0, _, _ => throw eof
  | fuel + 1, decodedValue, shiftAmount => do
    let current ← readByte
    let decodedValue := decodedValue ||| (current &&& 0x7F#8).setWidth 64 <<< shiftAmount
    if current &&& 0x80#8 = 0#8 then return decodedValue
    else readUnsignedVarintLoop fuel decodedValue (shiftAmount + 7)

def readUnsignedVarint : ReadM Word := do
  let r ← get
  readUnsignedVarintLoop (r.endPos - r.index + 1) 0#64 0

def readSignedVarint : ReadM Word := do
  let unsignedValue ← readUnsignedVarint
  return unzigzag unsignedValue

def pos (r : BitReader) : ℕ :=
  8 * r.index + (8 - r.headCount)

/-- Bit `k` of a memory. -/
def bitAt (mem : ℕ → Byte) (k : ℕ) : Bool :=
  (mem (k / 8)).getMsbD (k % 8)

/-- The bits `bs` are the next ones and lie before `end`. -/
structure Avail (r : BitReader) (bs : List Bool) : Prop where
  headCount_le : r.headCount ≤ 8
  fits : r.pos + bs.length ≤ 8 * r.endPos
  bit : ∀ (i : ℕ) (h : i < bs.length), bitAt r.mem (r.pos + i) = bs[i]

variable {r : BitReader} {bs : List Bool} {n : ℕ}

theorem Avail.advance {r' : BitReader} {rest : List Bool} (h : r.Avail (bs ++ rest))
    (hmem : r'.mem = r.mem) (hend : r'.endPos = r.endPos) (hcount : r'.headCount ≤ 8)
    (hpos : r'.pos = r.pos + bs.length) : r'.Avail rest := by
  have hfits := h.fits
  rw [length_append] at hfits
  refine ⟨hcount, by rw [hpos, hend]; omega, fun i hi => ?_⟩
  have hbit := h.bit (bs.length + i) (by rw [length_append]; omega)
  rw [getElem_append_right (by omega)] at hbit
  simp only [Nat.add_sub_cancel_left] at hbit
  rw [hmem, hpos, Nat.add_assoc, hbit]

/-- The reader after `prepare`: a used-up byte is left behind. -/
def norm (r : BitReader) : BitReader :=
  if r.headCount = 0 then { r with index := r.index + 1, headCount := 8 } else r

theorem pos_norm (r : BitReader) : r.norm.pos = r.pos := by
  unfold norm pos
  split
  · rename_i h
    simp only [h]
    omega
  · rfl

theorem mem_norm (r : BitReader) : r.norm.mem = r.mem := by
  unfold norm
  split <;> rfl

theorem endPos_norm (r : BitReader) : r.norm.endPos = r.endPos := by
  unfold norm
  split <;> rfl

theorem headCount_norm_pos (r : BitReader) : 0 < r.norm.headCount := by
  unfold norm
  split
  · exact Nat.succ_pos 7
  · exact Nat.pos_of_ne_zero ‹_›

theorem Avail.norm (h : r.Avail bs) : r.norm.Avail bs := by
  refine Avail.advance (show r.Avail ([] ++ bs) from h) r.mem_norm r.endPos_norm ?_ r.pos_norm
  unfold BitReader.norm
  split
  · exact le_rfl
  · exact h.headCount_le

theorem Avail.index_lt (h : r.Avail bs) (hne : bs ≠ []) : r.index < r.endPos := by
  have hlen := length_pos_iff.2 hne
  have hfits := h.fits
  unfold pos at hfits
  omega

theorem Avail.prepare_eq (h : r.Avail bs) (hne : bs ≠ []) : prepare r = (.ok (), r.norm) := by
  have hnorm := h.norm.index_lt hne
  rw [r.endPos_norm] at hnorm
  unfold BitReader.norm at hnorm ⊢
  by_cases hcount : r.headCount = 0
  · rw [if_pos hcount] at hnorm ⊢
    have h₁ : ¬ r.index ≥ r.endPos := by simp only at hnorm; omega
    have h₂ : ¬ r.index + 1 ≥ r.endPos := by simp only at hnorm; omega
    unfold prepare
    rw [get_bind_apply]
    simp only [if_neg h₁, if_neg h₂, if_pos hcount]
    rfl
  · rw [if_neg hcount] at hnorm ⊢
    have h₁ : ¬ r.index ≥ r.endPos := by omega
    unfold prepare
    rw [get_bind_apply]
    simp only [if_neg h₁, if_neg hcount]
    rfl

theorem shiftLeft_and_beq (x : Byte) (k : ℕ) :
    ((x <<< k) &&& 0x80#8 == 0x80#8) = x.getMsbD k := by
  have htop : ∀ y : Byte, (y &&& 0x80#8 == 0x80#8) = y.getMsbD 0 := by decide
  rw [htop, BitVec.getMsbD_shiftLeft, Nat.zero_add]

theorem consumes_readBit (b : Bool) : Consumes Avail readBit [b] b := by
  intro r rest h
  have hprep := h.prepare_eq (by simp)
  have hn := h.norm
  have hpos := r.headCount_norm_pos
  have hle := hn.headCount_le
  have hbit : (r.norm.cur <<< (8 - r.norm.headCount) &&& 0x80#8 == 0x80#8) = b := by
    have hb : bitAt r.norm.mem r.norm.pos = b := hn.bit 0 (by simp)
    rw [shiftLeft_and_beq, ← hb, bitAt, pos, cur]
    congr 2 <;> omega
  refine ⟨{ r.norm with headCount := r.norm.headCount - 1 }, ?_, ?_⟩
  · unfold readBit
    rw [bind_apply_of_ok hprep, ← hbit]
    rfl
  · refine hn.advance rfl rfl ?_ ?_
    · simp only
      omega
    · simp only [pos, length_singleton]
      omega

theorem consumes_readByte (x : Byte) : Consumes Avail readByte (ofBitVec x) x := by
  intro r rest h
  have hlen : (ofBitVec x ++ rest).length = 8 + rest.length := by simp
  have hprep := h.prepare_eq (by
    rw [← length_pos_iff]
    omega)
  have hn := h.norm
  have hpos := r.headCount_norm_pos
  have hle := hn.headCount_le
  have hfits := hn.fits
  rw [hlen] at hfits
  unfold pos at hfits
  have hcheck : ¬ (r.norm.headCount ≠ 8 ∧ r.norm.index + 1 ≥ r.norm.endPos) := by omega
  have hbyte : r.norm.cur <<< (8 - r.norm.headCount) |||
      r.norm.mem (r.norm.index + 1) >>> r.norm.headCount = x := by
    apply BitVec.eq_of_getMsbD_eq
    intro i hi
    have hb := hn.bit i (by omega)
    rw [getElem_append_left (by simpa using hi), getElem_ofBitVec] at hb
    rw [← hb, BitVec.getMsbD_or, BitVec.getMsbD_shiftLeft, BitVec.getMsbD_ushiftRight,
      bitAt, pos]
    by_cases hlt : i < r.norm.headCount
    · have hdiv : (8 * r.norm.index + (8 - r.norm.headCount) + i) / 8 = r.norm.index := by
        omega
      have hmod : (8 * r.norm.index + (8 - r.norm.headCount) + i) % 8 =
          i + (8 - r.norm.headCount) := by omega
      rw [hdiv, hmod, cur]
      simp [hlt]
    · have hdiv : (8 * r.norm.index + (8 - r.norm.headCount) + i) / 8 =
          r.norm.index + 1 := by omega
      have hmod : (8 * r.norm.index + (8 - r.norm.headCount) + i) % 8 =
          i - r.norm.headCount := by omega
      rw [hdiv, hmod, BitVec.getMsbD_of_ge _ _ (by omega)]
      simp [hlt, hi]
  refine ⟨{ r.norm with index := r.norm.index + 1 }, ?_, ?_⟩
  · unfold readByte
    rw [bind_apply_of_ok hprep,
      get_bind_apply]
    simp only [if_neg hcheck, hbyte]
    rfl
  · refine hn.advance rfl rfl hle ?_
    simp only [pos, length_ofBitVec]
    omega

theorem toNat_mask (x : Word) (hn : n ≤ 64) : (mask x n).toNat = x.toNat % 2 ^ n := by
  have hlt : 2 ^ n - 1 < 2 ^ 64 := by
    have := Nat.pow_le_pow_right (n := 2) (by omega) hn
    omega
  rw [mask, BitVec.toNat_and, BitVec.toNat_ofNat, Nat.mod_eq_of_lt hlt,
    Nat.and_two_pow_sub_one_eq_mod]

theorem Avail.take_eq (h : r.Avail bs) (hn : n ≤ r.headCount) (hlen : n ≤ bs.length) :
    bs.take n = ((ofBitVec r.cur).drop (8 - r.headCount)).take n := by
  have hle := h.headCount_le
  apply ext_getElem
  · simp only [length_take, length_drop, length_ofBitVec]
    omega
  · intro i h₁ h₂
    have hi : i < n := by
      rw [length_take] at h₁
      omega
    have hdiv : (8 * r.index + (8 - r.headCount) + i) / 8 = r.index := by omega
    have hmod : (8 * r.index + (8 - r.headCount) + i) % 8 = 8 - r.headCount + i := by
      omega
    rw [getElem_take, ← h.bit i (by omega), bitAt, pos, hdiv, hmod]
    simp [cur]

theorem Avail.toNat_mask_cur (h : r.Avail bs) (hn : n ≤ r.headCount) (hlen : n ≤ bs.length) :
    (mask (r.cur.setWidth 64 >>> (r.headCount - n)) n).toNat = value (bs.take n) := by
  have hle := h.headCount_le
  have hcur : (r.cur.setWidth 64).toNat = r.cur.toNat := by
    rw [BitVec.toNat_setWidth, Nat.mod_eq_of_lt (by have := r.cur.isLt; omega)]
  rw [h.take_eq hn hlen, value_ofBitVec_slice _ hn hle, toNat_mask _ (by omega),
    BitVec.toNat_ushiftRight, Nat.shiftRight_eq_div_pow, hcur]

theorem Avail.shiftLeft_or_mask {rest : List Bool} (h : r.Avail (bs ++ rest))
    (hn : bs.length ≤ r.headCount) (result : Word) :
    result <<< bs.length |||
        mask (r.cur.setWidth 64 >>> (r.headCount - bs.length)) bs.length =
      pushBits result bs := by
  have hle := h.headCount_le
  refine shiftLeft_or_eq_pushBits _ _ _ (by omega) ?_
  rw [h.toNat_mask_cur hn (by simp), take_left]

theorem consumes_readBitsTail (result : Word) (bs : List Bool) (hbs : bs.length < 8) :
    Consumes Avail (readBitsTail bs.length result) bs (pushBits result bs) := by
  intro r rest h
  have hle := h.headCount_le
  by_cases hlt : r.headCount < bs.length
  · -- The bits straddle two bytes: the rest of this one, then the top of the next.
    obtain ⟨cs, ds, hsplit, hcs⟩ : ∃ cs ds, bs = cs ++ ds ∧ cs.length = r.headCount :=
      ⟨bs.take r.headCount, bs.drop r.headCount, by simp, by simp [hlt.le]⟩
    have hlen : bs.length = r.headCount + ds.length := by
      rw [hsplit, length_append, hcs]
    have hds : ds ≠ [] := by
      rw [← length_pos_iff]
      omega
    rw [hsplit, append_assoc] at h
    let r₁ : BitReader := { r with index := r.index + 1, headCount := 8 }
    have h₁ : r₁.Avail (ds ++ rest) := by
      refine h.advance rfl rfl le_rfl ?_
      simp only [r₁, pos, hcs]
      omega
    have hin : ¬ r.index + 1 ≥ r.endPos := by
      have := h₁.index_lt (by simp [hds])
      simp only [r₁] at this
      omega
    have hfst := h.shiftLeft_or_mask hcs.le result
    have hsnd := h₁.shiftLeft_or_mask (by simp only [r₁]; omega) (pushBits result cs)
    rw [hcs, Nat.sub_self, BitVec.ushiftRight_zero] at hfst
    refine ⟨{ r with index := r.index + 1, headCount := 8 - ds.length }, ?_, ?_⟩
    · unfold readBitsTail
      rw [get_bind_apply]
      simp only [if_pos hlt, if_neg hin, hfst, show bs.length - r.headCount = ds.length by omega]
      rw [hsplit, pushBits_append, ← hsnd]
      rfl
    · refine h₁.advance rfl rfl (Nat.sub_le 8 _) ?_
      simp only [r₁, pos]
      omega
  · refine ⟨{ r with headCount := r.headCount - bs.length }, ?_, ?_⟩
    · unfold readBitsTail
      rw [get_bind_apply]
      simp only [if_neg hlt]
      rw [h.shiftLeft_or_mask (by omega) result]
      rfl
    · refine h.advance rfl rfl (by simp only; omega) ?_
      simp only [pos]
      omega

theorem consumes_readBitsLoop (result : Word) (bs : List Bool) :
    Consumes Avail (readBitsLoop bs.length result) bs (pushBits result bs) := by
  obtain ⟨n, hn⟩ : ∃ n, n = bs.length := ⟨_, rfl⟩
  rw [← hn]
  fun_induction readBitsLoop n result generalizing bs with
  | case1 num result ih =>
    have hlen : num + 8 = bs.length := hn
    obtain ⟨x, hx⟩ := exists_ofBitVec (w := 8) (bs.take 8) (by simp; omega)
    have hpush : result <<< 8 ||| x.setWidth 64 = pushBits result (ofBitVec x) := by
      have h := shiftLeft_or_eq_pushBits result (x.setWidth 64) (ofBitVec x)
        (by simp) (by rw [value_ofBitVec]; simp; omega)
      rwa [length_ofBitVec] at h
    have hrest := ih x (bs.drop 8) (by simp; omega)
    rw [hpush, ← pushBits_append, hx, take_append_drop] at hrest
    rw [← take_append_drop 8 bs, ← hx]
    refine (consumes_readByte x).bind ?_
    rwa [hpush, hx, take_append_drop]
  | case2 num result hlt =>
    subst hn
    refine consumes_readBitsTail result bs ?_
    by_contra hge
    exact hlt (bs.length - 8) (by omega)

theorem consumes_readBits (bs : List Bool) :
    Consumes Avail (readBits bs.length) bs (BitVec.ofNat 64 (value bs)) := by
  have h := consumes_readBitsLoop 0#64 bs
  rwa [show pushBits 0#64 bs = BitVec.ofNat 64 (value bs) by simp [pushBits]] at h

theorem consumes_readUnsignedVarintLoop (n fuel : ℕ) (acc value : Word) (shift : ℕ)
    (hn : 0 < n) (hvalue : value.toNat < 2 ^ (7 * n))
    (hfuel : (encodeUnsignedVarintLoop n value).length ≤ fuel) :
    Consumes Avail (readUnsignedVarintLoop fuel acc shift)
      (ofBytes (encodeUnsignedVarintLoop n value)) (acc ||| value <<< shift) := by
  fun_induction encodeUnsignedVarintLoop n value generalizing fuel acc shift with
  | case1 value => omega
  | case2 n value nextByte value' hzero =>
    obtain ⟨⟨hlast, hpay⟩, -⟩ := payload_facts value
    obtain ⟨fuel, rfl⟩ : ∃ f, fuel = f + 1 := Nat.exists_eq_succ_of_ne_zero (by
      rw [length_singleton] at hfuel
      omega)
    have hrest := lowSeven_or_rest (by decide) value shift
    rw [show value >>> 7 = 0#64 from hzero, BitVec.zero_shiftLeft, BitVec.or_zero] at hrest
    rw [readUnsignedVarintLoop, ofBytes_cons, ← hrest]
    refine (consumes_readByte nextByte).bind ?_
    simp only [nextByte, hlast, hpay, if_true]
    exact Consumes.pure _
  | case3 n value nextByte value' hzero ih =>
    obtain ⟨-, hmore, hpay⟩ := payload_facts value
    rw [length_cons] at hfuel
    obtain ⟨fuel, rfl⟩ : ∃ f, fuel = f + 1 := Nat.exists_eq_succ_of_ne_zero (by omega)
    obtain ⟨hpos, hlt⟩ := varint_rest_lt hvalue hzero
    rw [readUnsignedVarintLoop, ofBytes_cons, ← lowSeven_or_rest (by decide) value shift,
      ← BitVec.or_assoc]
    refine (consumes_readByte (nextByte ||| 0x80#8)).bind ?_
    simp only [nextByte, hpay, if_neg hmore]
    exact ih fuel _ (shift + 7) hpos hlt (by omega)

theorem consumes_readUnsignedVarint (value : Word) :
    Consumes Avail readUnsignedVarint (ofBytes (encodeUnsignedVarint value)) value := by
  intro r rest h
  have hfuel : (encodeUnsignedVarint value).length ≤ r.endPos - r.index + 1 := by
    have hfits := h.fits
    rw [length_append, length_ofBytes] at hfits
    unfold pos at hfits
    omega
  have hloop := consumes_readUnsignedVarintLoop 10 _ 0#64 value 0 (by omega)
    (value.isLt.trans (by decide)) hfuel r rest h
  rwa [BitVec.zero_or, BitVec.shiftLeft_zero] at hloop

theorem consumes_readSignedVarint (value : Word) :
    Consumes Avail readSignedVarint (ofBytes (encodeSignedVarint value)) value := by
  have h := (consumes_readUnsignedVarint (zigzag value)).bind_pure (f := unzigzag)
  rwa [unzigzag_zigzag] at h

/-- Varints are read back at any bit. -/
theorem bitStream_varints (x : Word) :
    Consumes Avail readUnsignedVarint (ofBytes (encodeUnsignedVarint x)) x ∧
      Consumes Avail readSignedVarint (ofBytes (encodeSignedVarint x)) x :=
  ⟨consumes_readUnsignedVarint x, consumes_readSignedVarint x⟩

end BitReader

end PromTCS
