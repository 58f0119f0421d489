import PromTCS.Wal.GorillaBits
import PromTCS.Wal.TreeRecords

/-!
# Compressed sample records

`treeSamplesGorilla` writes the number of samples and the first sample in full; of
every later sample it writes what changed against the sample before it. Metric,
source, delta of deltas and transaction number are one bit when nothing changed. A
value is written as its XOR with the previous value, cut to a window of significant
bits: the previous window where the bits fit into it, otherwise a new one, whose
leading zeros are given in five bits and whose length in six.

Writer and reader keep the same tracking state, so the reader is followed with the
writer's state as long as the leading zeros of a new window fit into the five bits.
-/

namespace PromTCS

open List Consumes LogWriter

open BitString AlignedBits

structure GorillaState where
  mid : BitVec 16
  sgid : Word
  t : Word
  v : Word
  txn : Word
  tDelta : Word
  txnDelta : Word
  lz : ℕ
  tz : ℕ
deriving DecidableEq, Repr

namespace GorillaState

def start (s : TreeRefSample) : GorillaState where
  mid := s.mid
  sgid := s.sgid
  t := s.t
  v := s.v
  txn := s.txn
  tDelta := 0#64
  txnDelta := 0#64
  lz := 64
  tz := 0

variable (p : GorillaState)

def fits (xorVal : Word) : Bool :=
  decide (p.lz ≤ xorVal.clz.toNat) && decide (p.tz ≤ xorVal.ctz.toNat)

/-- The window behind the value `v`. -/
def window (v : Word) : ℕ × ℕ :=
  let xorVal := v ^^^ p.v
  if xorVal = 0#64 ∨ p.fits xorVal then (p.lz, p.tz)
  else (xorVal.clz.toNat, xorVal.ctz.toNat)

/-- The state behind the sample `s`. -/
def next (s : TreeRefSample) : GorillaState where
  mid := s.mid
  sgid := s.sgid
  t := s.t
  v := s.v
  txn := s.txn
  tDelta := s.t - p.t
  txnDelta := s.txn - p.txn
  lz := (p.window s.v).1
  tz := (p.window s.v).2

/-- A new window for `v` has fewer than 32 leading zeros. -/
def Narrow (v : Word) : Prop :=
  ¬ (v ^^^ p.v = 0#64 ∨ p.fits (v ^^^ p.v) = true) → (v ^^^ p.v).clz.toNat < 32

def AllNarrow : GorillaState → List TreeRefSample → Prop
  | _, [] => True
  | p, s :: rest => p.Narrow s.v ∧ AllNarrow (p.next s) rest

end GorillaState

open GorillaState

namespace LogWriter

def kSampleGorilla : Byte := 6

/-- A bit that tells whether a field is as expected, and the number `d` if not. -/
def writeChange (w : GorillaBitWriter) (same : Bool) (d : Word) : GorillaBitWriter :=
  if same then w.writeBit false else (w.writeBit true).writeSignedVarint d

def writeValue (p : GorillaState) (w : GorillaBitWriter) (v : Word) : GorillaBitWriter :=
  let xorVal := v ^^^ p.v
  if xorVal = 0#64 then w.writeBit false
  else
    let w := w.writeBit true
    let leadingZeros := xorVal.clz.toNat
    let trailingZeros := xorVal.ctz.toNat
    if p.fits xorVal then
      (w.writeBit false).writeBits (xorVal >>> p.tz) (64 - p.lz - p.tz)
    else
      let meaningfulBits := 64 - leadingZeros - trailingZeros
      (((w.writeBit true).writeBits (BitVec.ofNat 64 leadingZeros) 5).writeBits
        (BitVec.ofNat 64 (meaningfulBits - 1)) 6).writeBits
        (xorVal >>> trailingZeros) meaningfulBits

/-- The body of the loop of `treeSamplesGorilla`. -/
def writeSample (p : GorillaState) (w : GorillaBitWriter) (s : TreeRefSample) :
    GorillaBitWriter :=
  let w := writeChange w (s.mid == p.mid) (s.mid.setWidth 64 - p.mid.setWidth 64)
  let w := writeChange w (s.sgid == p.sgid) (s.sgid - p.sgid)
  let dod := s.t - p.t - p.tDelta
  let w := writeChange w (dod == 0#64) dod
  let w := writeValue p w s.v
  let txnDelta := s.txn - p.txn
  writeChange w (txnDelta == p.txnDelta) txnDelta

def writeSamples : GorillaState → GorillaBitWriter → List TreeRefSample → GorillaBitWriter
  | _, w, [] => w
  | p, w, s :: rest => writeSamples (p.next s) (writeSample p w s) rest

def writeFirst (w : GorillaBitWriter) (s : TreeRefSample) : GorillaBitWriter :=
  ((((w.writeFixed16 s.mid).writeFixed64BE s.sgid).writeFixed64BE s.t).writeFixed64BE
    s.v).writeFixed64BE s.txn

/-- `treeSamplesGorilla` for a pointer and a number of elements, `none` where it reads
behind the elements there are. -/
def treeSamplesGorillaArray (samples : List TreeRefSample) (itemNum : BitVec 32) :
    Option (List Byte) :=
  if itemNum = 0#32 then some []
  else if samples.length < itemNum.toNat then none
  else
    match samples with
    | [] => none
    | s :: rest =>
      let w := writeFirst GorillaBitWriter.empty s
      let w := writeSamples (.start s) w (rest.take (itemNum.toNat - 1))
      some (kSampleGorilla :: Coding.encodeVarint32 itemNum ++ w.flushToByte.buf)

/-- `treeSamplesGorilla` for a vector, whose size is cast to a `uint32_t`. -/
def treeSamplesGorilla (samples : List TreeRefSample) : Option (List Byte) :=
  treeSamplesGorillaArray samples (BitVec.ofNat 32 samples.length)

def changeTokens (same : Bool) (d : Word) : List Token :=
  if same then [.bit false] else [.bit true, .bytes (Endian.encodeSignedVarint d)]

/-- The low `num` bits of a word. -/
def bitTokens (num : ℕ) (x : Word) : List Token :=
  ((ofBitVec x).drop (64 - num)).map .bit

def valueTokens (p : GorillaState) (v : Word) : List Token :=
  let xorVal := v ^^^ p.v
  let mb := 64 - xorVal.clz.toNat - xorVal.ctz.toNat
  if xorVal = 0#64 then [.bit false]
  else if p.fits xorVal then
    [.bit true] ++ ([.bit false] ++ bitTokens (64 - p.lz - p.tz) (xorVal >>> p.tz))
  else
    [.bit true] ++ ([.bit true] ++ (bitTokens 5 (BitVec.ofNat 64 xorVal.clz.toNat) ++
      (bitTokens 6 (BitVec.ofNat 64 (mb - 1)) ++ bitTokens mb (xorVal >>> xorVal.ctz.toNat))))

def sampleTokens (p : GorillaState) (s : TreeRefSample) : List Token :=
  changeTokens (s.mid == p.mid) (s.mid.setWidth 64 - p.mid.setWidth 64) ++
    (changeTokens (s.sgid == p.sgid) (s.sgid - p.sgid) ++
    (changeTokens (s.t - p.t - p.tDelta == 0#64) (s.t - p.t - p.tDelta) ++
    (valueTokens p s.v ++ changeTokens (s.txn - p.txn == p.txnDelta) (s.txn - p.txn))))

def samplesTokens : GorillaState → List TreeRefSample → List Token
  | _, [] => []
  | p, s :: rest => sampleTokens p s ++ samplesTokens (p.next s) rest

def firstTokens (s : TreeRefSample) : List Token :=
  [.bytes (Coding.putFixed16 s.mid), .bytes (Coding.putFixed64BE s.sgid),
    .bytes (Coding.putFixed64BE s.t), .bytes (Coding.putFixed64BE s.v),
    .bytes (Coding.putFixed64BE s.txn)]

section Holds

variable {w : GorillaBitWriter} {bs : List Bool}

section

variable (h : w.Holds bs)
include h

theorem holds_writeChange (same : Bool) (d : Word) :
    (writeChange w same d).Holds (writeAll bs (changeTokens same d)) := by
  cases same with
  | true => exact h.writeBit false
  | false => exact (h.writeBit true).writeAligned _

theorem holds_bitTokens (x : Word) {num : ℕ} (hnum : num ≤ 64) :
    (w.writeBits x num).Holds (writeAll bs (bitTokens num x)) := by
  rw [bitTokens, writeAll_map_bit]
  exact h.writeBits x hnum

theorem holds_writeValue (p : GorillaState) (v : Word) :
    (writeValue p w v).Holds (writeAll bs (valueTokens p v)) := by
  unfold writeValue valueTokens
  by_cases hzero : v ^^^ p.v = 0#64
  · simp only [if_pos hzero]
    exact h.writeBit false
  · simp only [if_neg hzero]
    by_cases hfits : p.fits (v ^^^ p.v) = true
    · simp only [if_pos hfits, writeAll_append]
      exact holds_bitTokens ((h.writeBit true).writeBit false) _ (by omega)
    · simp only [if_neg hfits, writeAll_append]
      exact holds_bitTokens (holds_bitTokens (holds_bitTokens
        ((h.writeBit true).writeBit true) _ (by omega)) _ (by omega)) _ (by omega)

theorem holds_writeSample (p : GorillaState) (s : TreeRefSample) :
    (writeSample p w s).Holds (writeAll bs (sampleTokens p s)) := by
  simp only [sampleTokens, writeAll_append]
  exact holds_writeChange (holds_writeValue (holds_writeChange (holds_writeChange
    (holds_writeChange h _ _) _ _) _ _) p s.v) _ _

theorem holds_writeSamples (p : GorillaState) (samples : List TreeRefSample) :
    (writeSamples p w samples).Holds (writeAll bs (samplesTokens p samples)) := by
  induction samples generalizing w bs p with
  | nil => exact h
  | cons s samples ih =>
    rw [writeSamples, samplesTokens, writeAll_append]
    exact ih (holds_writeSample h p s) (p.next s)

theorem holds_writeFirst (s : TreeRefSample) :
    (writeFirst w s).Holds (writeAll bs (firstTokens s)) :=
  ((((h.writeAligned _).writeAligned _).writeAligned _).writeAligned _).writeAligned _

end

end Holds

end LogWriter

namespace LogReader

open GorillaBitReader

def readChange {α : Type} (same : α) (f : Word → α) : GorillaM α := do
  if (← readBit) = some false then return same
  else
    let d ← readSignedVarint
    return f d

def readValue (p : GorillaState) : GorillaM (Word × ℕ × ℕ) := do
  if (← readBit) = some false then return (p.v, p.lz, p.tz)
  else if (← readBit) = some false then
    let shifted ← readBits (64 - p.lz - p.tz)
    return (p.v ^^^ shifted <<< p.tz, p.lz, p.tz)
  else
    let lz ← readBits 5
    let length ← readBits 6
    let shifted ← readBits (length.toNat + 1)
    if lz.toNat + (length.toNat + 1) ≤ 64 then
      let tz := 64 - lz.toNat - (length.toNat + 1)
      return (p.v ^^^ shifted <<< tz, lz.toNat, tz)
    else throw .badShift

/-- The body of the loop of `treeSamplesGorilla`. -/
def readSample (p : GorillaState) : GorillaM (TreeRefSample × GorillaState) := do
  let mid ← readChange p.mid fun d => (p.mid.setWidth 64 + d).setWidth 16
  let sgid ← readChange p.sgid fun d => p.sgid + d
  let dod ← readChange 0#64 id
  let t := p.t + p.tDelta + dod
  let (v, lz, tz) ← readValue p
  let txnDelta ← readChange p.txnDelta id
  let txn := p.txn + txnDelta
  return (⟨sgid, mid, t, v, txn⟩, ⟨mid, sgid, t, v, txn, t - p.t, txnDelta, lz, tz⟩)

def readSamples : ℕ → GorillaState → GorillaM (List TreeRefSample)
  | 0, _ => return []
  | n + 1, p => do
    let (cur, p) ← readSample p
    let rest ← readSamples n p
    return cur :: rest

def readFirst : GorillaM TreeRefSample := do
  let mid ← readFixed16
  let sgid ← readFixed64BE
  let t ← readFixed64BE
  let v ← readFixed64BE
  let txn ← readFixed64BE
  return ⟨sgid, mid, t, v, txn⟩

def readAll (totalSamples : ℕ) : GorillaM (List TreeRefSample) := do
  let first ← readFirst
  let rest ← readSamples (totalSamples - 1) (.start first)
  return first :: rest

/-- `treeSamplesGorilla`: the samples put into the vector, `none` where it returns
`false`. -/
def treeSamplesGorilla (s : List Byte) : Except GorillaFault (Option (List TreeRefSample)) :=
  match s with
  | [] => .ok none
  | type :: input =>
    if type ≠ kSampleGorilla then .ok none
    else
      match Coding.getVarint32 input with
      | none => .ok none
      | some (totalSamples, input) =>
        if totalSamples = 0#32 then .ok (some [])
        else (readAll totalSamples.toNat (ofData input)).1.map some

theorem consumes_readChange {α : Type} {same : Bool} {d : Word} {old : α} {f : Word → α}
    {x : α} (hsame : same = true → old = x) (hdiff : same = false → f d = x) :
    Consumes GorillaBitReader.Avail (readChange old f) (changeTokens same d) x := by
  cases same with
  | true =>
    rw [← hsame rfl]
    exact (consumes_readBit false).bind (Consumes.pure old)
  | false =>
    rw [← hdiff rfl]
    exact (consumes_readBit true).bind (consumes_readSignedVarint d).bind_pure

theorem consumes_bitTokens {num : ℕ} (hnum : num ≤ 64) (x : Word) :
    Consumes GorillaBitReader.Avail (readBits num) (bitTokens num x)
      (BitVec.ofNat 64 (x.toNat % 2 ^ num)) := by
  have hlen : ((ofBitVec x).drop (64 - num)).length = num := by
    rw [length_drop, length_ofBitVec]
    omega
  have h := consumes_readBits ((ofBitVec x).drop (64 - num))
  rwa [hlen, value_ofBitVec_drop _ hnum] at h

/-- The state of the reader where the writer's is `p`: the value and its window may differ. -/
def reading (p : GorillaState) (x : Word × ℕ × ℕ) : GorillaState :=
  { p with v := x.1, lz := x.2.1, tz := x.2.2 }

/-- The value and the window the reader makes of what is written for `v`, behind its own `x`:
of a new window it keeps five bits of the leading zeros, and puts the window where they say. -/
def decodedValue (p : GorillaState) (x : Word × ℕ × ℕ) (v : Word) : Word × ℕ × ℕ :=
  let xorVal := v ^^^ p.v
  let lz := xorVal.clz.toNat % 32
  let tz := 64 - lz - (64 - xorVal.clz.toNat - xorVal.ctz.toNat)
  if xorVal = 0#64 then x
  else if p.fits xorVal then (x.1 ^^^ (xorVal >>> p.tz) <<< x.2.2, x.2)
  else (x.1 ^^^ (xorVal >>> xorVal.ctz.toNat) <<< tz, lz, tz)

def decodedSamples : GorillaState → Word × ℕ × ℕ → List TreeRefSample → List TreeRefSample
  | _, _, [] => []
  | p, x, s :: rest =>
    { s with v := (decodedValue p x s.v).1 } ::
      decodedSamples (p.next s) (decodedValue p x s.v) rest

/-- The samples that a record of the samples is read as. -/
def decoded : List TreeRefSample → List TreeRefSample
  | [] => []
  | s :: rest => s :: decodedSamples (.start s) (s.v, 64, 0) rest

theorem consumes_allBits {num : ℕ} (hnum : num ≤ 64) {x : Word} (hx : x.toNat < 2 ^ num) :
    Consumes GorillaBitReader.Avail (readBits num) (bitTokens num x) x := by
  have h := consumes_bitTokens hnum x
  rwa [Nat.mod_eq_of_lt hx, BitVec.ofNat_toNat, BitVec.setWidth_eq] at h

theorem toNat_ushiftRight_lt {x : Word} {lead trail : ℕ} (hlead : lead ≤ x.clz.toNat)
    (hle : lead + trail ≤ 64) : (x >>> trail).toNat < 2 ^ (64 - lead - trail) := by
  have hlt : x.toNat < 2 ^ (64 - lead) :=
    BitVec.toNat_lt_two_pow_sub_clz.trans_le (Nat.pow_le_pow_right (by decide) (by omega))
  rw [BitVec.toNat_ushiftRight, Nat.shiftRight_eq_div_pow]
  apply Nat.div_lt_of_lt_mul
  rwa [← pow_add, show trail + (64 - lead - trail) = 64 - lead by omega]

variable {p : GorillaState} {x : Word × ℕ × ℕ}

section Reading

-- a window of the reader is as wide as the writer's, so that both agree on the bits of a value
variable (hp : p.lz + p.tz ≤ 64) (hx : x.2.1 + x.2.2 = p.lz + p.tz)

include hp hx

theorem consumes_readValue (v : Word) :
    Consumes GorillaBitReader.Avail (readValue (reading p x)) (valueTokens p v)
      (decodedValue p x v) := by
  unfold valueTokens decodedValue readValue reading
  by_cases hzero : v ^^^ p.v = 0#64
  · simp only [if_pos hzero]
    exact (consumes_readBit false).bind (Consumes.pure _)
  · simp only [if_neg hzero]
    by_cases hfits : p.fits (v ^^^ p.v) = true
    · have hwindow : p.lz ≤ (v ^^^ p.v).clz.toNat ∧ p.tz ≤ (v ^^^ p.v).ctz.toNat := by
        simpa [fits] using hfits
      have hbits := toNat_ushiftRight_lt hwindow.1 hp
      have hshifted := consumes_allBits (by omega) hbits
      have hwidth : 64 - x.2.1 - x.2.2 = 64 - p.lz - p.tz := by omega
      simp only [if_pos hfits, hwidth]
      exact (consumes_readBit true).bind ((consumes_readBit false).bind hshifted.bind_pure)
    · simp only [if_neg hfits]
      have hsum := clz_add_ctz_lt hzero
      obtain ⟨mb, hmb⟩ : ∃ mb, 64 - (v ^^^ p.v).clz.toNat - (v ^^^ p.v).ctz.toNat = mb + 1 :=
        Nat.exists_eq_succ_of_ne_zero (by omega)
      have hlz := consumes_bitTokens (by decide : 5 ≤ 64)
        (BitVec.ofNat 64 (v ^^^ p.v).clz.toNat)
      have hlength := consumes_allBits (by decide : 6 ≤ 64) (x := BitVec.ofNat 64 mb)
        (by rw [BitVec.toNat_ofNat]; omega)
      have hshifted := consumes_allBits (by omega)
        (toNat_ushiftRight_lt (le_refl (v ^^^ p.v).clz.toNat) hsum.le)
      have hlzNat : (BitVec.ofNat 64 ((BitVec.ofNat 64 (v ^^^ p.v).clz.toNat).toNat % 2 ^ 5)).toNat
          = (v ^^^ p.v).clz.toNat % 32 := by
        simp only [BitVec.toNat_ofNat]
        omega
      have hmbNat : (BitVec.ofNat 64 mb).toNat = mb := by
        rw [BitVec.toNat_ofNat]
        omega
      rw [hmb] at hshifted ⊢
      refine (consumes_readBit true).bind ((consumes_readBit true).bind (hlz.bind
        (hlength.bind ?_)))
      simp only [hlzNat, hmbNat, if_pos (show (v ^^^ p.v).clz.toNat % 32 + (mb + 1) ≤ 64 by omega)]
      exact hshifted.bind_pure

theorem consumes_readSample (s : TreeRefSample) :
    Consumes GorillaBitReader.Avail (readSample (reading p x)) (sampleTokens p s)
      ({ s with v := (decodedValue p x s.v).1 },
        reading (p.next s) (decodedValue p x s.v)) := by
  unfold readSample
  have hmid : Consumes GorillaBitReader.Avail
      (readChange p.mid fun d => (p.mid.setWidth 64 + d).setWidth 16)
      (changeTokens (s.mid == p.mid) (s.mid.setWidth 64 - p.mid.setWidth 64)) s.mid :=
    consumes_readChange (fun h => (beq_iff_eq.1 h).symm) fun _ => by
      rw [add_sub_cancel]
      simp
  have hsgid : Consumes GorillaBitReader.Avail (readChange p.sgid fun d => p.sgid + d)
      (changeTokens (s.sgid == p.sgid) (s.sgid - p.sgid)) s.sgid :=
    consumes_readChange (fun h => (beq_iff_eq.1 h).symm) fun _ => add_sub_cancel _ _
  have hdod : Consumes GorillaBitReader.Avail (readChange 0#64 id)
      (changeTokens (s.t - p.t - p.tDelta == 0#64) (s.t - p.t - p.tDelta))
      (s.t - p.t - p.tDelta) :=
    consumes_readChange (fun h => (beq_iff_eq.1 h).symm) fun _ => rfl
  have htxn : Consumes GorillaBitReader.Avail (readChange p.txnDelta id)
      (changeTokens (s.txn - p.txn == p.txnDelta) (s.txn - p.txn)) (s.txn - p.txn) :=
    consumes_readChange (fun h => (beq_iff_eq.1 h).symm) fun _ => rfl
  refine hmid.bind (hsgid.bind (hdod.bind ((consumes_readValue hp hx s.v).bind ?_)))
  have ht : p.t + p.tDelta + (s.t - p.t - p.tDelta) = s.t := by
    rw [sub_sub, add_sub_cancel]
  have hlast := htxn.bind_pure (f := fun txnDelta =>
    ((⟨s.sgid, s.mid, s.t, (decodedValue p x s.v).1, p.txn + txnDelta⟩ : TreeRefSample),
      (⟨s.mid, s.sgid, s.t, (decodedValue p x s.v).1, p.txn + txnDelta, s.t - p.t, txnDelta,
        (decodedValue p x s.v).2.1, (decodedValue p x s.v).2.2⟩ : GorillaState)))
  simp only [add_sub_cancel] at hlast
  simp only [reading, ht]
  exact hlast

theorem width_decodedValue (v : Word) : (decodedValue p x v).2.1 + (decodedValue p x v).2.2 =
    (p.window v).1 + (p.window v).2 ∧ (p.window v).1 + (p.window v).2 ≤ 64 := by
  unfold decodedValue window
  by_cases hzero : v ^^^ p.v = 0#64
  · simpa only [if_pos hzero, hzero, true_or, if_true] using ⟨hx, hp⟩
  · have hsum := clz_add_ctz_lt hzero
    simp only [hzero, if_false, false_or]
    split_ifs
    · exact ⟨hx, hp⟩
    · exact ⟨by dsimp only; omega, hsum.le⟩

/-- Whatever the reader has made of the values before, it reads as many samples as were
written. -/
theorem consumes_readSamples (samples : List TreeRefSample) :
    Consumes GorillaBitReader.Avail (readSamples samples.length (reading p x))
      (samplesTokens p samples) (decodedSamples p x samples) := by
  induction samples generalizing p x with
  | nil => exact Consumes.pure []
  | cons s samples ih =>
    obtain ⟨hwidth, hle⟩ := width_decodedValue hp hx s.v
    exact (consumes_readSample hp hx s).bind (ih hle hwidth).bind_pure

end Reading

theorem decodedValue_of_narrow {v : Word} (h : p.Narrow v) :
    decodedValue p (p.v, p.lz, p.tz) v = (v, p.window v) := by
  unfold decodedValue window
  by_cases hzero : v ^^^ p.v = 0#64
  · rw [if_pos hzero, if_pos (Or.inl hzero), BitVec.xor_eq_zero_iff.1 hzero]
  · simp only [hzero, if_false, false_or]
    by_cases hfits : p.fits (v ^^^ p.v) = true
    · have hback := ushiftRight_shiftLeft (of_decide_eq_true (Bool.and_eq_true_iff.1 hfits).2)
      simp only [if_pos hfits, hback, xor_xor_self]
    · have hlt := h (not_or.2 ⟨hzero, hfits⟩)
      have hsum := clz_add_ctz_lt hzero
      have hlz : (v ^^^ p.v).clz.toNat % 32 = (v ^^^ p.v).clz.toNat := Nat.mod_eq_of_lt hlt
      have htz : 64 - (v ^^^ p.v).clz.toNat -
          (64 - (v ^^^ p.v).clz.toNat - (v ^^^ p.v).ctz.toNat) = (v ^^^ p.v).ctz.toNat := by omega
      have hback := ushiftRight_shiftLeft (le_refl (v ^^^ p.v).ctz.toNat)
      simp only [if_neg hfits, hlz, htz, hback, xor_xor_self]

theorem decodedValue_of_not_narrow {v : Word} (h : ¬ p.Narrow v) :
    (decodedValue p (p.v, p.lz, p.tz) v).1 ≠ v := by
  obtain ⟨hkeep, hge⟩ := Classical.not_imp.1 h
  obtain ⟨hzero, hfits⟩ := not_or.1 hkeep
  have hsum := clz_add_ctz_lt hzero
  have hlt : (v ^^^ p.v).clz.toNat < 64 := by omega
  have htz : 64 - (v ^^^ p.v).clz.toNat % 32 -
      (64 - (v ^^^ p.v).clz.toNat - (v ^^^ p.v).ctz.toNat) = (v ^^^ p.v).ctz.toNat + 32 := by
    omega
  have hback := ushiftRight_shiftLeft (le_refl (v ^^^ p.v).ctz.toNat)
  simp only [decodedValue, if_neg hzero, if_neg hfits, htz, BitVec.shiftLeft_add, hback]
  intro heq
  have hsame : (v ^^^ p.v) <<< 32 = v ^^^ p.v := by
    rw [← xor_xor_self ((v ^^^ p.v) <<< 32) p.v, BitVec.xor_comm _ p.v, heq, BitVec.xor_comm]
  exact hzero (eq_zero_of_shiftLeft_eq hsame (Nat.le_of_not_lt hge))

theorem decodedSamples_eq_iff (p : GorillaState) (samples : List TreeRefSample) :
    decodedSamples p (p.v, p.lz, p.tz) samples = samples ↔ p.AllNarrow samples := by
  induction samples generalizing p with
  | nil => exact iff_of_true rfl trivial
  | cons s samples ih =>
    rw [decodedSamples, cons_eq_cons, AllNarrow, ← ih]
    by_cases hnarrow : p.Narrow s.v
    · rw [decodedValue_of_narrow hnarrow, and_iff_right rfl, and_iff_right hnarrow]
      rfl
    · exact iff_of_false (fun h => decodedValue_of_not_narrow hnarrow
        (congrArg TreeRefSample.v h.1)) fun h => hnarrow h.1

/-- No new window in the record of a batch has 32 or more leading zeros. -/
def NarrowBatch : List TreeRefSample → Prop
  | [] => True
  | s :: rest => (start s).AllNarrow rest

theorem decoded_eq_iff (batch : List TreeRefSample) :
    decoded batch = batch ↔ NarrowBatch batch := by
  cases batch with
  | nil => exact iff_of_true rfl trivial
  | cons s rest =>
    rw [decoded, cons_eq_cons, and_iff_right rfl]
    exact decodedSamples_eq_iff (start s) rest

/-- At most the value of a sample is read as another one. -/
def SameButValue (s s' : TreeRefSample) : Prop :=
  { s' with v := s.v } = s

theorem forall₂_decoded (samples : List TreeRefSample) :
    Forall₂ SameButValue samples (decoded samples) := by
  have hrest : ∀ p x rest, Forall₂ SameButValue rest (decodedSamples p x rest) := by
    intro p x rest
    induction rest generalizing p x with
    | nil => exact .nil
    | cons s rest ih => exact .cons rfl (ih _ _)
  cases samples with
  | nil => exact .nil
  | cons s rest => exact .cons rfl (hrest _ _ _)

theorem consumes_readFirst (s : TreeRefSample) :
    Consumes GorillaBitReader.Avail readFirst (firstTokens s) s := by
  unfold readFirst
  exact (consumes_readFixed16 s.mid).bind ((consumes_readFixed64BE s.sgid).bind
    ((consumes_readFixed64BE s.t).bind ((consumes_readFixed64BE s.v).bind
      (consumes_readFixed64BE s.txn).bind_pure)))

theorem treeSamplesGorilla_eq_ok (s : TreeRefSample) (rest : List TreeRefSample) {n : BitVec 32}
    (hn : n.toNat = rest.length + 1) :
    treeSamplesGorilla (kSampleGorilla :: Coding.encodeVarint32 n ++ (writeSamples (.start s)
      (writeFirst GorillaBitWriter.empty s) rest).flushToByte.buf) =
        .ok (some (decoded (s :: rest))) := by
  have hne : n ≠ 0#32 := fun h => by
    rw [h] at hn
    exact absurd hn (Nat.succ_ne_zero _).symm
  have hbuf := (holds_writeSamples (holds_writeFirst GorillaBitWriter.holds_empty s)
    (.start s) rest).flushToByte.ofBytes_buf
  generalize (writeSamples _ _ rest).flushToByte.buf = buf at hbuf
  have havail : (ofData buf).Avail (firstTokens s ++ samplesTokens (.start s) rest ++ []) := by
    rw [append_nil]
    apply avail_ofData
    rw [hbuf, writeAll_append]
    exact prefix_pad _
  have hstart : reading (.start s) (s.v, 64, 0) = .start s := rfl
  have hrest := consumes_readSamples (p := .start s) (x := (s.v, 64, 0)) le_rfl rfl rest
  rw [hstart] at hrest
  obtain ⟨r, hrun, -⟩ := (consumes_readFirst s).bind
    (f := fun first => do
      let rest ← readSamples rest.length (.start first)
      return first :: rest) hrest.bind_pure _ _ havail
  have hread : treeSamplesGorilla (kSampleGorilla :: Coding.encodeVarint32 n ++ buf) =
      (readAll (rest.length + 1) (ofData buf)).1.map some := by
    simp [treeSamplesGorilla, Coding.getVarint32_encodeVarint32, hne, hn]
  rw [hread, readAll, Nat.add_sub_cancel, hrun]
  rfl

end LogReader

def GorillaRoundTrip (samples : List TreeRefSample) : Prop :=
  ∃ bytes, treeSamplesGorilla samples = some bytes ∧
    LogReader.treeSamplesGorilla bytes = .ok (some samples)

theorem LogWriter.treeSamplesGorilla_read (s : TreeRefSample) (rest : List TreeRefSample)
    (hn : BitVec.ofNat 32 (s :: rest).length ≠ 0#32) :
    ∃ bytes, treeSamplesGorilla (s :: rest) = some bytes ∧
      LogReader.treeSamplesGorilla bytes =
        .ok (some (LogReader.decoded (s :: rest.take ((s :: rest).length % 2 ^ 32 - 1)))) := by
  have hle : (s :: rest).length % 2 ^ 32 ≤ (s :: rest).length := Nat.mod_le _ _
  have hnat : (BitVec.ofNat 32 (s :: rest).length).toNat = (s :: rest).length % 2 ^ 32 :=
    BitVec.toNat_ofNat _ _
  have hpos : (s :: rest).length % 2 ^ 32 ≠ 0 := fun h =>
    hn (BitVec.eq_of_toNat_eq (hnat.trans h))
  rw [treeSamplesGorilla, treeSamplesGorillaArray, if_neg hn, if_neg (by rw [hnat]; omega)]
  refine ⟨_, rfl, ?_⟩
  rw [hnat, LogReader.treeSamplesGorilla_eq_ok]
  rw [hnat, length_take]
  rw [length_cons] at hle hpos ⊢
  omega

/-- Samples are read back exactly if a `uint32_t` counts them and no new window has 32
or more leading zeros. -/
theorem gorilla_roundTrip_iff (s : TreeRefSample) (rest : List TreeRefSample) :
    GorillaRoundTrip (s :: rest) ↔
      (s :: rest).length < 2 ^ 32 ∧ (start s).AllNarrow rest := by
  by_cases hzero : BitVec.ofNat 32 (s :: rest).length = 0#32
  · -- the size is a multiple of 2 ^ 32 and the record is empty
    have hge : ¬ (s :: rest).length < 2 ^ 32 := fun hlt => by
      have hnat := congrArg BitVec.toNat hzero
      rw [BitVec.toNat_ofNat, Nat.mod_eq_of_lt hlt] at hnat
      exact absurd hnat (Nat.succ_ne_zero _)
    have hempty : treeSamplesGorilla (s :: rest) = some [] := by
      rw [treeSamplesGorilla, hzero, treeSamplesGorillaArray, if_pos rfl]
    refine iff_of_false ?_ fun h => hge h.1
    rintro ⟨bytes, hbytes, hread⟩
    obtain rfl := Option.some.inj (hempty.symm.trans hbytes)
    exact nomatch hread
  · obtain ⟨bytes, hbytes, hread⟩ := LogWriter.treeSamplesGorilla_read s rest hzero
    have hiff : GorillaRoundTrip (s :: rest) ↔
        LogReader.decoded (s :: rest.take ((s :: rest).length % 2 ^ 32 - 1)) = s :: rest := by
      rw [GorillaRoundTrip, hbytes]
      constructor
      · rintro ⟨bytes', hbytes', h⟩
        rw [← Option.some.inj hbytes'] at h
        exact Option.some.inj (Except.ok.inj (hread.symm.trans h))
      · intro h
        exact ⟨bytes, rfl, h ▸ hread⟩
    rw [hiff]
    by_cases hlt : (s :: rest).length < 2 ^ 32
    · have hall : rest.take ((s :: rest).length % 2 ^ 32 - 1) = rest := by
        rw [Nat.mod_eq_of_lt hlt, length_cons, Nat.add_sub_cancel, take_length]
      rw [hall, LogReader.decoded_eq_iff, and_iff_right hlt]
      rfl
    · refine iff_of_false (fun h => hlt ?_) fun h => hlt h.1
      have hlen := (LogReader.forall₂_decoded
        (s :: rest.take ((s :: rest).length % 2 ^ 32 - 1))).length_eq
      rw [h] at hlen
      simp only [length_cons, length_take] at hlen ⊢
      omega

theorem LogWriter.treeSamplesGorilla_eq_some (s : TreeRefSample) (rest : List TreeRefSample)
    (hlen : (s :: rest).length < 2 ^ 32) : ∃ bytes, treeSamplesGorilla (s :: rest) = some bytes ∧
      LogReader.treeSamplesGorilla bytes = .ok (some (LogReader.decoded (s :: rest))) := by
  have hne : BitVec.ofNat 32 (s :: rest).length ≠ 0#32 := fun h => by
    have hnat := congrArg BitVec.toNat h
    rw [BitVec.toNat_ofNat, Nat.mod_eq_of_lt hlen] at hnat
    exact absurd hnat (Nat.succ_ne_zero _)
  obtain ⟨bytes, hbytes, hread⟩ := LogWriter.treeSamplesGorilla_read s rest hne
  rw [Nat.mod_eq_of_lt hlen, length_cons, Nat.add_sub_cancel, take_length] at hread
  exact ⟨bytes, hbytes, hread⟩

namespace LogReader

/-- What the reader puts into the vector for the record of a batch. -/
def readBatch (batch : List TreeRefSample) : List TreeRefSample :=
  match LogWriter.treeSamplesGorilla batch with
  | none => []
  | some bytes =>
    match treeSamplesGorilla bytes with
    | .ok (some l) => l
    | _ => []

theorem readBatch_eq {batch : List TreeRefSample} (hlen : batch.length < 2 ^ 32) :
    readBatch batch = decoded batch := by
  cases batch with
  | nil => rfl
  | cons s rest =>
    obtain ⟨bytes, hbytes, hread⟩ := LogWriter.treeSamplesGorilla_eq_some s rest hlen
    simp only [readBatch, hbytes, hread]

end LogReader

/-- Two samples with the values 1.0 and the next larger double, whose XOR has 63 leading
zeros. -/
theorem gorilla_roundTrip_nextDouble :
    ¬ GorillaRoundTrip [⟨1, 1, 0, 0x3FF0000000000000, 0⟩, ⟨1, 1, 15, 0x3FF0000000000001, 1⟩] := by
  rintro ⟨bytes, hbytes, hread⟩
  obtain rfl := Option.some.inj hbytes
  revert hread
  decide +kernel

end PromTCS
