import PromTCS.Base.Coding
import PromTCS.Lib.AlignedBits
import PromTCS.Lib.Consume

/-!
# The bit stream of the Gorilla records

`GorillaBitWriter` and `GorillaBitReader`, which `log_writer` and `log_reader` use
for compressed samples. Bits go into the current byte from the top, and every
fixed-width or variable-length integer starts on a byte boundary. The writer appends
tokens of `AlignedBits`, the reader consumes them. At the end of the data a bit is
`-1`, here `none`; the fixed-width reads do not look where the data ends, and a varint
that goes on for more than ten bytes shifts by more than the width of its word: both
are faults.
-/

namespace PromTCS

open List Consumes Endian

open BitString AlignedBits

/-- The writer; `buf` is what it has appended to the record. -/
structure GorillaBitWriter where
  buf : List Byte
  curByte : Byte
  bitPos : ℕ
deriving DecidableEq, Repr

namespace GorillaBitWriter

def empty : GorillaBitWriter where
  buf := []
  curByte := 0#8
  bitPos := 0

variable (w : GorillaBitWriter)

def writeBit (bit : Bool) : GorillaBitWriter :=
  let curByte := if bit then w.curByte ||| 1#8 <<< (7 - w.bitPos) else w.curByte
  if w.bitPos + 1 = 8 then ⟨w.buf ++ [curByte], 0#8, 0⟩
  else ⟨w.buf, curByte, w.bitPos + 1⟩

/-- `writeBits(value, num_bits)`: from bit `num_bits - 1` down to bit 0. -/
def writeBits : GorillaBitWriter → Word → ℕ → GorillaBitWriter
  | w, _, 0 => w
  | w, value, i + 1 => (w.writeBit (value >>> i &&& 1#64 == 1#64)).writeBits value i

def flushToByte : GorillaBitWriter :=
  if w.bitPos > 0 then ⟨w.buf ++ [w.curByte], 0#8, 0⟩ else w

def writeAligned (bytes : List Byte) : GorillaBitWriter :=
  let w' := w.flushToByte
  { w' with buf := w'.buf ++ bytes }

/-- `writeUnsignedVarint`; its loop is the one of `encode_unsigned_varint`. -/
def writeUnsignedVarint (value : Word) : GorillaBitWriter :=
  w.writeAligned (encodeUnsignedVarint value)

def writeSignedVarint (value : Word) : GorillaBitWriter :=
  w.writeUnsignedVarint (zigzag value)

def writeFixed64BE (value : Word) : GorillaBitWriter :=
  w.writeAligned (Coding.putFixed64BE value)

def writeFixed16 (value : BitVec 16) : GorillaBitWriter :=
  w.writeAligned (Coding.putFixed16 value)

/-- The writer has written `bs`: whole bytes, and the top of the current byte. -/
def Holds (bs : List Bool) : Prop :=
  ∃ cs : List Bool, bs = ofBytes w.buf ++ cs ∧ cs.length = w.bitPos ∧ w.bitPos < 8 ∧
    ofBitVec w.curByte = cs ++ List.replicate (8 - w.bitPos) false

theorem holds_empty : empty.Holds [] :=
  ⟨[], rfl, rfl, Nat.zero_lt_succ 7, ofBitVec_zero 8⟩

variable {w : GorillaBitWriter} {bs : List Bool}

theorem Holds.writeBit (h : w.Holds bs) (bit : Bool) : (w.writeBit bit).Holds (bs ++ [bit]) := by
  obtain ⟨cs, hbs, hcs, hlt, hcur⟩ := h
  have hbyte : ofBitVec (if bit then w.curByte ||| 1#8 <<< (7 - w.bitPos) else w.curByte) =
      cs ++ bit :: List.replicate (7 - w.bitPos) false := by
    have hsplit : List.replicate (8 - w.bitPos) false =
        false :: List.replicate (7 - w.bitPos) false := by
      rw [show 8 - w.bitPos = (7 - w.bitPos) + 1 by omega, replicate_succ]
    cases bit with
    | false => exact hcur.trans (by rw [hsplit])
    | true =>
      have hone := ofBitVec_one_shiftLeft ⟨w.bitPos, hlt⟩
      rw [show 8 - (w.bitPos + 1) = 7 - w.bitPos by omega] at hone
      exact ofBitVec_or_of_append hcur (by rw [hone, hcs]) (by simp; omega)
  unfold GorillaBitWriter.writeBit
  by_cases hfull : w.bitPos + 1 = 8
  · simp only [if_pos hfull]
    refine ⟨[], ?_, rfl, Nat.zero_lt_succ 7, ofBitVec_zero 8⟩
    rw [hbs, ofBytes_concat, hbyte, show 7 - w.bitPos = 0 by omega, replicate_zero,
      append_nil, append_assoc]
  · simp only [if_neg hfull]
    refine ⟨cs ++ [bit], ?_, by simp [hcs], by simp only; omega, ?_⟩
    · rw [hbs, append_assoc]
    · rw [hbyte, show 8 - (w.bitPos + 1) = 7 - w.bitPos by omega, append_assoc,
        singleton_append]

theorem Holds.writeBits (h : w.Holds bs) (value : Word) {num : ℕ} (hnum : num ≤ 64) :
    (w.writeBits value num).Holds (bs ++ (ofBitVec value).drop (64 - num)) := by
  induction num generalizing w bs with
  | zero =>
    rw [drop_of_length_le (by simp), append_nil]
    exact h
  | succ i ih =>
    have hlt : 64 - (i + 1) < (ofBitVec value).length := by simp; omega
    have hbit : (value >>> i &&& 1#64 == 1#64) = value.getMsbD (64 - (i + 1)) := by
      rw [Bool.eq_iff_iff, beq_iff_eq, and_one_eq_one_iff, BitVec.getLsbD_ushiftRight,
        BitVec.getMsbD_eq_getLsbD, decide_eq_true (by omega), Bool.true_and,
        show 64 - 1 - (64 - (i + 1)) = i + 0 by omega]
    have hrest := ih (h.writeBit (value >>> i &&& 1#64 == 1#64)) (by omega)
    rw [append_assoc, singleton_append, hbit] at hrest
    rw [GorillaBitWriter.writeBits, drop_eq_getElem_cons hlt, getElem_ofBitVec, hbit,
      show 64 - (i + 1) + 1 = 64 - i by omega]
    exact hrest

theorem Holds.flushToByte (h : w.Holds bs) : w.flushToByte.Holds (pad bs) := by
  obtain ⟨cs, hbs, hcs, hlt, hcur⟩ := h
  have hmod : bs.length % 8 = w.bitPos := by
    rw [hbs, length_append, length_ofBytes, hcs]
    omega
  unfold GorillaBitWriter.flushToByte
  by_cases hpos : w.bitPos > 0
  · rw [if_pos hpos]
    refine ⟨[], ?_, rfl, Nat.zero_lt_succ 7, ofBitVec_zero 8⟩
    rw [pad, hmod, show (8 - w.bitPos) % 8 = 8 - w.bitPos by omega, ofBytes_concat, hcur, hbs,
      append_nil, append_assoc]
  · rw [if_neg hpos, pad_eq_self (by omega)]
    exact ⟨cs, hbs, hcs, hlt, hcur⟩

theorem Holds.ofBytes_buf (h : w.Holds (pad bs)) : ofBytes w.buf = pad bs := by
  obtain ⟨cs, hbs, hcs, hlt, -⟩ := h
  have hlen := congrArg List.length hbs
  rw [length_pad, length_append, length_ofBytes] at hlen
  have hnil : cs = [] := length_eq_zero_iff.1 (by omega)
  rw [hbs, hnil, append_nil]

theorem Holds.writeAligned (h : w.Holds bs) (bytes : List Byte) :
    (w.writeAligned bytes).Holds (pad bs ++ ofBytes bytes) := by
  have hbuf := h.flushToByte.ofBytes_buf
  obtain ⟨cs, hbs, hcs, hlt, hcur⟩ := h.flushToByte
  have hnil : cs = [] := append_right_eq_self.1 (hbs.symm.trans hbuf.symm)
  subst hnil
  refine ⟨[], ?_, hcs, hlt, hcur⟩
  rw [← hbuf, append_nil, ← ofBytes_append]
  rfl

end GorillaBitWriter

inductive GorillaFault where
  | outOfBounds
  | badShift
deriving DecidableEq, Repr

/-- The reader; `size_` is the length of `data`. -/
structure GorillaBitReader where
  data : List Byte
  bytePos : ℕ
  bitPos : ℕ
deriving DecidableEq, Repr

abbrev GorillaM := ExceptT GorillaFault (StateM GorillaBitReader)

namespace GorillaBitReader

def ofData (data : List Byte) : GorillaBitReader where
  data := data
  bytePos := 0
  bitPos := 0

def advance (r : GorillaBitReader) : GorillaBitReader :=
  if r.bitPos + 1 = 8 then { r with bitPos := 0, bytePos := r.bytePos + 1 }
  else { r with bitPos := r.bitPos + 1 }

def readBit : GorillaM (Option Bool) := do
  let r ← get
  match r.data[r.bytePos]? with
  | none => return none
  | some byte =>
    set r.advance
    return some (byte >>> (7 - r.bitPos) &&& 1#8 == 1#8)

/-- The loop of `readBits` with its accumulator. -/
def readBitsLoop : ℕ → Word → GorillaM Word
  | 0, value => return value
  | n + 1, value => do
    match ← readBit with
    | none => return value
    | some bit => readBitsLoop n (value <<< 1 ||| (BitVec.ofBool bit).setWidth 64)

def readBits (numBits : ℕ) : GorillaM Word :=
  readBitsLoop numBits 0#64

/-- `skipToByte()`. -/
def skip (r : GorillaBitReader) : GorillaBitReader :=
  if r.bitPos > 0 then { r with bitPos := 0, bytePos := r.bytePos + 1 } else r

def skipToByte : GorillaM Unit :=
  modify skip

/-- The loop of `readUnsignedVarint` over the bytes that are left. -/
def readUnsignedVarintLoop : List Byte → ℕ → Word → GorillaM Word
  | [], _, value => return value
  | b :: rest, shift, value => do
    modify fun r => { r with bytePos := r.bytePos + 1 }
    if shift < 64 then
      let value := value ||| (b &&& 0x7F#8).setWidth 64 <<< shift
      if b &&& 0x80#8 = 0#8 then return value
      else readUnsignedVarintLoop rest (shift + 7) value
    else throw .badShift

def readUnsignedVarint : GorillaM Word := do
  skipToByte
  let r ← get
  readUnsignedVarintLoop (r.data.drop r.bytePos) 0 0#64

def readSignedVarint : GorillaM Word := do
  let uval ← readUnsignedVarint
  return unzigzag uval

/-- The fixed-width reads, which take `k` bytes from the next byte boundary. -/
def readFixed {α : Type} (decode : List Byte → Option α) (k : ℕ) : GorillaM α := do
  skipToByte
  let r ← get
  match decode (r.data.drop r.bytePos) with
  | none => throw .outOfBounds
  | some x =>
    set { r with bytePos := r.bytePos + k }
    return x

def readFixed64BE : GorillaM Word :=
  readFixed Coding.decodeFixed64BE 8

def readFixed16 : GorillaM (BitVec 16) :=
  readFixed Coding.decodeFixed16 2

/-- The tokens `ts` are next: written on top of the bits already read, they are the
beginning of the data. -/
def Avail (r : GorillaBitReader) (ts : List Token) : Prop :=
  r.bitPos < 8 ∧ ∃ bs : List Bool, bs.length = 8 * r.bytePos + r.bitPos ∧
    writeAll bs ts <+: ofBytes r.data

theorem avail_ofData {data : List Byte} {ts : List Token}
    (h : writeAll [] ts <+: ofBytes data) : (ofData data).Avail ts :=
  ⟨Nat.zero_lt_succ 7, [], rfl, h⟩

theorem shiftRight_and_beq (x : Byte) {k : ℕ} (hk : k < 8) :
    (x >>> (7 - k) &&& 1#8 == 1#8) = x.getMsbD k := by
  have hlow : ∀ y : Byte, (y &&& 1#8 == 1#8) = y.getLsbD 0 := by decide
  rw [hlow, BitVec.getLsbD_ushiftRight, BitVec.getMsbD_eq_getLsbD, decide_eq_true hk,
    Bool.true_and, Nat.add_zero]

theorem consumes_readBit (b : Bool) : Consumes Avail readBit [.bit b] (some b) := by
  intro r rest h
  obtain ⟨hpos, bs, hlen, hpre⟩ := h
  have hbits : bs ++ [b] <+: ofBytes r.data := (prefix_writeAll _ rest).trans hpre
  have hle := hbits.length_le
  rw [length_append, length_singleton, length_ofBytes, hlen] at hle
  have hin : r.bytePos < r.data.length := by omega
  have hbit : (r.data[r.bytePos] >>> (7 - r.bitPos) &&& 1#8 == 1#8) = b := by
    have hget : (ofBytes r.data)[bs.length]? = some b := by
      obtain ⟨tail, htail⟩ := hbits
      rw [← htail]
      simp
    have hdiv : bs.length / 8 = r.bytePos := by omega
    have hmod : bs.length % 8 = r.bitPos := by omega
    rw [getElem?_eq_getElem (by rw [length_ofBytes]; omega), Option.some.injEq,
      getElem_ofBytes r.data _ _ (by omega)] at hget
    simp only [hdiv, hmod] at hget
    rw [shiftRight_and_beq _ hpos, hget]
  refine ⟨r.advance, ?_, ?_⟩
  · unfold readBit
    rw [get_bind_apply, getElem?_eq_getElem hin, ← hbit]
    rfl
  · unfold advance
    by_cases hfull : r.bitPos + 1 = 8
    · rw [if_pos hfull]
      refine ⟨Nat.zero_lt_succ 7, bs ++ [b], ?_, hpre⟩
      simp only [length_append, length_singleton]
      omega
    · rw [if_neg hfull]
      refine ⟨by simp only; omega, bs ++ [b], ?_, hpre⟩
      simp only [length_append, length_singleton]
      omega

theorem consumes_readBitsLoop (value : Word) (bs : List Bool) :
    Consumes Avail (readBitsLoop bs.length value) (bs.map .bit) (pushBits value bs) := by
  induction bs generalizing value with
  | nil =>
    have hnil : pushBits value [] = value := by simp [pushBits]
    rw [hnil]
    exact Consumes.pure value
  | cons b bs ih =>
    have hpush : value <<< 1 ||| (BitVec.ofBool b).setWidth 64 = pushBits value [b] :=
      shiftLeft_or_eq_pushBits value _ [b] (Nat.le_of_ble_eq_true rfl) (by cases b <;> rfl)
    have hrest := ih (pushBits value [b])
    rw [← pushBits_append, singleton_append, ← hpush] at hrest
    exact (consumes_readBit b).bind hrest

theorem consumes_readBits (bs : List Bool) :
    Consumes Avail (readBits bs.length) (bs.map .bit) (BitVec.ofNat 64 (value bs)) := by
  have h := consumes_readBitsLoop 0#64 bs
  rwa [show pushBits 0#64 bs = BitVec.ofNat 64 (value bs) by simp [pushBits]] at h

theorem Avail.skip {r : GorillaBitReader} {l : List Byte} {rest : List Token}
    (h : r.Avail (.bytes l :: rest)) :
    ∃ tail, r.skip.data.drop r.skip.bytePos = l ++ tail ∧
      Avail { r.skip with bytePos := r.skip.bytePos + l.length } rest := by
  obtain ⟨hpos, bs, hlen, hpre⟩ := h
  have hdata : r.skip.data = r.data := by
    unfold GorillaBitReader.skip
    split <;> rfl
  have hzero : r.skip.bitPos = 0 := by
    unfold GorillaBitReader.skip
    split
    · rfl
    · omega
  have hpad : (pad bs).length = 8 * r.skip.bytePos := by
    rw [length_pad, hlen]
    unfold GorillaBitReader.skip
    split
    · simp only
      omega
    · omega
  have hbits : pad bs ++ ofBytes l <+: ofBytes r.data := (prefix_writeAll _ rest).trans hpre
  obtain ⟨after, hafter⟩ := hbits
  have hdrop : ofBytes (r.data.drop r.skip.bytePos) = ofBytes l ++ after := by
    rw [ofBytes_drop, ← hafter, append_assoc, ← hpad, drop_left]
  obtain ⟨tail, htail, -⟩ := exists_of_ofBytes_eq_append hdrop
  refine ⟨tail, by rw [hdata, htail], ?_, pad bs ++ ofBytes l, ?_, ?_⟩
  · simp only [hzero]
    decide
  · simp only [length_append, length_ofBytes, hpad, hzero]
    omega
  · simp only [hdata]
    exact hpre

theorem consumes_readFixed {α : Type} {decode : List Byte → Option α} {k : ℕ} {l : List Byte}
    {x : α} (hk : l.length = k) (hdecode : ∀ rest, decode (l ++ rest) = some x) :
    Consumes Avail (readFixed decode k) [.bytes l] x := by
  intro r rest h
  obtain ⟨tail, hdrop, hrest⟩ := Avail.skip h
  refine ⟨_, ?_, hrest⟩
  unfold readFixed
  rw [bind_apply_of_ok (show skipToByte r = (.ok (), r.skip) from rfl),
    get_bind_apply, hdrop]
  simp only [hdecode, hk]
  rfl

theorem consumes_readFixed64BE (x : Word) :
    Consumes Avail readFixed64BE [.bytes (Coding.putFixed64BE x)] x :=
  consumes_readFixed rfl (Coding.decodeFixed64BE_putFixed64BE x)

theorem consumes_readFixed16 (x : BitVec 16) :
    Consumes Avail readFixed16 [.bytes (Coding.putFixed16 x)] x :=
  consumes_readFixed rfl (Coding.decodeFixed16_putFixed16 x)

theorem readUnsignedVarintLoop_eq {n : ℕ} {value : Word} (shift : ℕ) (acc : Word)
    (tail : List Byte) (r : GorillaBitReader) (hn : 0 < n) (hvalue : value.toNat < 2 ^ (7 * n))
    (hshift : shift + 7 * n ≤ 70) :
    readUnsignedVarintLoop (encodeUnsignedVarintLoop n value ++ tail) shift acc r =
      (.ok (acc ||| value <<< shift), { r with bytePos := r.bytePos +
        (encodeUnsignedVarintLoop n value).length }) := by
  fun_induction encodeUnsignedVarintLoop n value generalizing shift acc r with
  | case1 value => omega
  | case2 n value nextByte value' hzero =>
    obtain ⟨⟨hlast, hpay⟩, -⟩ := payload_facts value
    have hrest := lowSeven_or_rest (by decide) value shift
    rw [show value >>> 7 = 0#64 from hzero, BitVec.zero_shiftLeft, BitVec.or_zero] at hrest
    rw [singleton_append, readUnsignedVarintLoop, ← hrest,
      bind_apply_of_ok (show (modify _ : GorillaM Unit) r = (.ok (), _) from rfl)]
    simp only [nextByte, hlast, hpay, if_true, if_pos (show shift < 64 by omega)]
    rfl
  | case3 n value nextByte value' hzero ih =>
    obtain ⟨-, hmore, hpay⟩ := payload_facts value
    obtain ⟨hpos, hlt⟩ := varint_rest_lt hvalue hzero
    rw [cons_append, readUnsignedVarintLoop,
      bind_apply_of_ok (show (modify _ : GorillaM Unit) r = (.ok (), _) from rfl)]
    simp only [nextByte, hpay, if_neg hmore, if_pos (show shift < 64 by omega)]
    rw [ih _ _ _ hpos hlt (by omega), BitVec.or_assoc, lowSeven_or_rest (by decide)]
    simp only [length_cons]
    congr 2
    omega

theorem consumes_readUnsignedVarint (value : Word) :
    Consumes Avail readUnsignedVarint [.bytes (encodeUnsignedVarint value)] value := by
  intro r rest h
  obtain ⟨tail, hdrop, hrest⟩ := Avail.skip h
  refine ⟨_, ?_, hrest⟩
  unfold readUnsignedVarint
  rw [bind_apply_of_ok (show skipToByte r = (.ok (), r.skip) from rfl),
    get_bind_apply, hdrop]
  have hloop := readUnsignedVarintLoop_eq 0 0#64 tail r.skip
    (by decide : 0 < 10) (value.isLt.trans (by decide)) (by decide)
  rwa [BitVec.zero_or, BitVec.shiftLeft_zero] at hloop

theorem consumes_readSignedVarint (value : Word) :
    Consumes Avail readSignedVarint [.bytes (encodeSignedVarint value)] value := by
  have h := (consumes_readUnsignedVarint (zigzag value)).bind_pure (f := unzigzag)
  rwa [unzigzag_zigzag] at h

end GorillaBitReader

end PromTCS
