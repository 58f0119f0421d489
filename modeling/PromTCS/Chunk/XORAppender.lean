import PromTCS.Chunk.BitStream

/-!
# The XOR appender

`chunk/XORAppender`: a sample is written as the difference to its predecessor.
The first timestamp and the first delta are varints, later ones are the
difference of two deltas in one of four widths. A value is written as the xor
with the previous one, in the window of significant bits of an earlier sample
when it fits there, and with a window of its own otherwise.

The appender holds a reference to the stream of its chunk, so its functions take
the stream and return the changed one. `valueCode`, `deltaDeltaCode` and
`sampleCode` are the format itself: the bits these functions append.
-/

namespace PromTCS

open List Endian

open BitString BitStream

/-- The fields of `XORAppender` besides the stream it refers to. -/
structure XORAppender where
  timestamp : Word
  value : Word
  deltaTimestamp : Word
  leadingZero : ℕ
  trailingZero : ℕ
deriving DecidableEq, Repr

namespace XORAppender

def bitRange (deltaDelta : Word) (num : ℕ) : Bool :=
  decide (-(2 ^ (num - 1) - 1) ≤ deltaDelta.toInt ∧ deltaDelta.toInt ≤ 2 ^ (num - 1))

def clampedClz (x : Word) : ℕ :=
  if x.clz.toNat ≥ 32 then 31 else x.clz.toNat

variable (a : XORAppender)

/-- Whether the xor fits the window in use; `0xff` is no window. -/
def fitsWindow (x : Word) : Bool :=
  decide (a.leadingZero ≠ 0xff ∧ clampedClz x ≥ a.leadingZero ∧
    x.ctz.toNat ≥ a.trailingZero)

def writeDeltaValue (s : BitStream) (value : Word) :
    XORAppender × BitStream :=
  let deltaValue := value ^^^ a.value
  if deltaValue = 0#64 then (a, s.writeBit false)
  else
    let s := s.writeBit true
    let lz := clampedClz deltaValue
    let tz := deltaValue.ctz.toNat
    if a.fitsWindow deltaValue then
      (a, (s.writeBit false).writeBits (deltaValue >>> a.trailingZero)
        (64 - a.leadingZero - a.trailingZero))
    else
      let s := (s.writeBit true).writeBits (BitVec.ofNat 64 lz) 5
      let sigbits := 64 - lz - tz
      let s := s.writeBits (BitVec.ofNat 64 sigbits) 6
      ({ a with leadingZero := lz, trailingZero := tz },
        s.writeBits (deltaValue >>> tz) sigbits)

/-- The timestamp part of `append` from the third sample on. -/
def writeDeltaDelta (s : BitStream) (deltaDelta : Word) : BitStream :=
  if deltaDelta = 0#64 then s.writeBit false
  else if bitRange deltaDelta 14 then (s.writeBits 0x02#64 2).writeBits deltaDelta 14
  else if bitRange deltaDelta 17 then (s.writeBits 0x06#64 3).writeBits deltaDelta 17
  else if bitRange deltaDelta 20 then (s.writeBits 0x0e#64 4).writeBits deltaDelta 20
  else (s.writeBits 0x0f#64 4).writeBits deltaDelta 64

/-- `append(timestamp, value)` on the stream the appender refers to. -/
def append (s : BitStream) (timestamp value : Word) :
    XORAppender × BitStream :=
  let numSamples := getUint16BigEndian s.stream s.headerSize
  let delta := if numSamples = 0 then 0#64 else timestamp - a.timestamp
  let (a, s) :=
    if numSamples = 0 then
      (a, (s.writeBytes (encodeSignedVarint timestamp)).writeBits value 64)
    else if numSamples = 1 then
      a.writeDeltaValue (s.writeBytes (encodeSignedVarint delta)) value
    else a.writeDeltaValue (writeDeltaDelta s (delta - a.deltaTimestamp)) value
  ({ a with timestamp := timestamp, value := value, deltaTimestamp := delta },
    { s with stream := putUint16BigEndian s.stream s.headerSize (numSamples + 1) })

/-- The low `num` bits of a word. -/
def lowBits (num : ℕ) (x : Word) : List Bool :=
  (ofBitVec x).drop (64 - num)

theorem length_lowBits {num : ℕ} (hnum : num ≤ 64) (x : Word) :
    (lowBits num x).length = num := by
  rw [lowBits, length_drop, length_ofBitVec]
  omega

def valueCode (value : Word) : List Bool :=
  let deltaValue := value ^^^ a.value
  let lz := clampedClz deltaValue
  let tz := deltaValue.ctz.toNat
  if deltaValue = 0#64 then [false]
  else if a.fitsWindow deltaValue then
    [true, false] ++ lowBits (64 - a.leadingZero - a.trailingZero)
      (deltaValue >>> a.trailingZero)
  else
    [true, true] ++ lowBits 5 (BitVec.ofNat 64 lz) ++
      lowBits 6 (BitVec.ofNat 64 (64 - lz - tz)) ++ lowBits (64 - lz - tz) (deltaValue >>> tz)

def deltaDeltaCode (deltaDelta : Word) : List Bool :=
  if deltaDelta = 0#64 then [false]
  else if bitRange deltaDelta 14 then [true, false] ++ lowBits 14 deltaDelta
  else if bitRange deltaDelta 17 then [true, true, false] ++ lowBits 17 deltaDelta
  else if bitRange deltaDelta 20 then [true, true, true, false] ++ lowBits 20 deltaDelta
  else [true, true, true, true] ++ lowBits 64 deltaDelta

variable (n : ℕ) (a : XORAppender) (timestamp value : Word)

/-- The bits of sample number `n`. -/
def sampleCode : List Bool :=
  if n = 0 then
    ofBytes (encodeSignedVarint timestamp) ++ ofBitVec value
  else if n = 1 then
    ofBytes (encodeSignedVarint (timestamp - a.timestamp)) ++ a.valueCode value
  else
    deltaDeltaCode (timestamp - a.timestamp - a.deltaTimestamp) ++ a.valueCode value

def nextWindow (value : Word) : XORAppender :=
  let deltaValue := value ^^^ a.value
  if deltaValue = 0#64 ∨ a.fitsWindow deltaValue then a
  else { a with leadingZero := clampedClz deltaValue, trailingZero := deltaValue.ctz.toNat }

/-- The appender after sample number `n`. -/
def advance : XORAppender :=
  { (if n = 0 then a else a.nextWindow value) with
    timestamp := timestamp
    value := value
    deltaTimestamp := if n = 0 then 0#64 else timestamp - a.timestamp }

theorem fst_writeDeltaValue (s : BitStream) (value : Word) :
    (a.writeDeltaValue s value).1 = a.nextWindow value := by
  unfold writeDeltaValue nextWindow
  by_cases hzero : value ^^^ a.value = 0#64
  · simp [hzero]
  · by_cases hfits : a.fitsWindow (value ^^^ a.value) = true <;> simp [hzero, hfits]

theorem clampedClz_le (x : Word) : clampedClz x ≤ 31 ∧ clampedClz x ≤ x.clz.toNat := by
  unfold clampedClz
  split <;> omega

variable {s : BitStream}

theorem holds_writeDeltaValue {bs : List Bool} (h : s.Holds bs) (a : XORAppender) (value : Word) :
    (a.writeDeltaValue s value).2.Holds (bs ++ a.valueCode value) := by
  unfold writeDeltaValue valueCode
  by_cases hzero : value ^^^ a.value = 0#64
  · simp only [hzero, if_true]
    exact h.writeBit false
  · simp only [hzero, if_false]
    have hone := h.writeBit true
    by_cases hfits : a.fitsWindow (value ^^^ a.value) = true
    · simp only [hfits, if_true]
      have hres := (hone.writeBit false).writeBits ((value ^^^ a.value) >>> a.trailingZero)
        (64 - a.leadingZero - a.trailingZero) (by omega)
      simpa [lowBits] using hres
    · simp only [hfits]
      have hres := (((hone.writeBit true).writeBits
        (BitVec.ofNat 64 (clampedClz (value ^^^ a.value))) 5 (by omega)).writeBits
        (BitVec.ofNat 64 (64 - clampedClz (value ^^^ a.value) -
          (value ^^^ a.value).ctz.toNat)) 6 (by omega)).writeBits
        ((value ^^^ a.value) >>> (value ^^^ a.value).ctz.toNat)
        (64 - clampedClz (value ^^^ a.value) - (value ^^^ a.value).ctz.toNat) (by omega)
      simpa [lowBits] using hres

theorem holds_writeDeltaDelta {bs : List Bool} (h : s.Holds bs) (deltaDelta : Word) :
    (writeDeltaDelta s deltaDelta).Holds (bs ++ deltaDeltaCode deltaDelta) := by
  have hprefixed : ∀ (tag : Word) (k : ℕ) (code : List Bool) (num : ℕ), k ≤ 64 → num ≤ 64 →
      lowBits k tag = code →
      ((s.writeBits tag k).writeBits deltaDelta num).Holds
        (bs ++ (code ++ lowBits num deltaDelta)) := by
    intro tag k code num hk hnum hcode
    have hres := (h.writeBits tag k hk).writeBits deltaDelta num hnum
    rwa [append_assoc, show (ofBitVec tag).drop (64 - k) = code from hcode] at hres
  unfold writeDeltaDelta deltaDeltaCode
  split_ifs
  · exact h.writeBit false
  · exact hprefixed _ _ _ _ (by omega) (by omega) (by decide)
  · exact hprefixed _ _ _ _ (by omega) (by omega) (by decide)
  · exact hprefixed _ _ _ _ (by omega) (by omega) (by decide)
  · exact hprefixed _ _ _ _ (by omega) (by omega) (by decide)

@[simp] theorem headerSize_writeDeltaValue (s : BitStream) (value : Word) :
    (a.writeDeltaValue s value).2.headerSize = s.headerSize := by
  unfold writeDeltaValue
  simp only
  split_ifs <;> simp

@[simp] theorem headerSize_writeDeltaDelta (s : BitStream) (deltaDelta : Word) :
    (writeDeltaDelta s deltaDelta).headerSize = s.headerSize := by
  unfold writeDeltaDelta
  split_ifs <;> simp

theorem append_carries {header : List Byte} {n : ℕ} {code : List Bool} (h : s.Carries header n code)
    (hn : n < 65536) (a : XORAppender) (timestamp value : Word) :
    (a.append s timestamp value).1 = a.advance n timestamp value ∧
      (a.append s timestamp value).2.Carries header (n + 1)
        (code ++ a.sampleCode n timestamp value) := by
  have hcount := h.getUint16BigEndian_eq hn
  have hbody : ∀ s' : BitStream, s'.headerSize = s.headerSize →
      s'.Holds (ofBytes (header ++ countBytes n) ++ code ++
        a.sampleCode n timestamp value) →
      { s' with stream := putUint16BigEndian s'.stream s'.headerSize (n + 1) }.Carries
        header (n + 1) (code ++ a.sampleCode n timestamp value) := by
    intro s' hhead hs'
    rw [append_assoc] at hs'
    exact (Carries.mk (hhead.trans h.headerSize_eq) hs').putUint16BigEndian (n + 1)
  unfold append
  simp only [hcount]
  by_cases hzero : n = 0
  · subst hzero
    simp only [if_true]
    refine ⟨rfl, hbody _ (by simp) ?_⟩
    have hw := (h.holds.writeBytes (encodeSignedVarint timestamp)).writeBits value
      64 le_rfl
    simpa [sampleCode] using hw
  · by_cases hone : n = 1
    · subst hone
      simp only [one_ne_zero, if_false, if_true]
      refine ⟨?_, hbody _ (by simp) ?_⟩
      · simp [advance, fst_writeDeltaValue]
      · have hw := holds_writeDeltaValue (h.holds.writeBytes
          (encodeSignedVarint (timestamp - a.timestamp))) a value
        simpa [sampleCode] using hw
    · simp only [hzero, hone, if_false]
      refine ⟨?_, hbody _ (by simp) ?_⟩
      · simp [advance, fst_writeDeltaValue, hzero]
      · have hw := holds_writeDeltaValue (holds_writeDeltaDelta h.holds
          (timestamp - a.timestamp - a.deltaTimestamp)) a value
        simpa [sampleCode, hzero, hone] using hw

theorem length_valueCode_pos (value : Word) :
    0 < (a.valueCode value).length := by
  unfold valueCode
  simp only
  split_ifs <;> simp

theorem length_sampleCode_pos :
    0 < (a.sampleCode n timestamp value).length := by
  have hpos := a.length_valueCode_pos value
  unfold sampleCode
  split_ifs
  · simp
  · rw [length_append]
    omega
  · rw [length_append]
    omega

theorem length_sampleCode_zero_le (timestamp value : Word) :
    (a.sampleCode 0 timestamp value).length ≤ 144 := by
  have hle := length_encodeUnsignedVarintLoop_le 10 (zigzag timestamp)
  simp only [sampleCode, if_true, length_append, length_ofBytes, length_ofBitVec,
    encodeSignedVarint, encodeUnsignedVarint]
  omega

end XORAppender

end PromTCS
