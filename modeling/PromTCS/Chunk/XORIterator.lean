import PromTCS.Chunk.BitReader
import PromTCS.Chunk.XORAppender

/-!
# The XOR iterator

`chunk/XORIterator`: `next` decodes one sample. An exception of the stream ends
the iteration; while the timestamp is read it also sets `err_`, while the value
is read it does not. The decoder keeps the fields of the appender that wrote the
samples, up to the window, which the appender may not have yet.

`next_of_agrees` is the step of the round trip: on the code of a sample, `next`
returns that sample and stays in step with the appender.
-/

namespace PromTCS

open List XORAppender

open XORAppender (lowBits clampedClz bitRange)

open BitString BitReader

/-- A timestamp and the bit pattern of a value. -/
abbrev Sample := Word × Word

def Sample.time (x : Sample) : ℤ := x.1.toInt

structure XORIterator where
  bstream : BitReader
  timestamp : Word
  value : Word
  deltaTimestamp : Word
  leadingZero : ℕ
  trailingZero : ℕ
  numTotal : ℕ
  numRead : ℕ
  err : Bool

namespace XORIterator

def ofPtr (mem : ℕ → Byte) (size : ℕ) : XORIterator where
  bstream := (BitReader.ofPtr mem size).popFront.popFront
  timestamp := 0#64
  value := 0#64
  deltaTimestamp := 0#64
  leadingZero := 0
  trailingZero := 0
  numTotal := (mem 0).toNat * 256 + (mem 1).toNat
  numRead := 0
  err := false

variable (it : XORIterator)

def at' : Sample :=
  (it.timestamp, it.value)

/-- A read inside `try`: on an exception the iteration ends, in `next` with
`err_` set (`onError = true`), in `read_value` without. -/
def tryRead {α : Type} (it : XORIterator) (onError : Bool) (m : ReadM α)
    (k : α → XORIterator → Bool × XORIterator) : Bool × XORIterator :=
  match m it.bstream with
  | (.ok a, r) => k a { it with bstream := r }
  | (.error _, r) => (false, { it with bstream := r, err := it.err || onError })

/-- The end of `read_value`: the significant bits in the current window. -/
def readDelta : Bool × XORIterator :=
  it.tryRead false (readBits (64 - it.leadingZero - it.trailingZero)) fun bits it =>
    (true, { it with value := it.value ^^^ (bits <<< it.trailingZero),
                     numRead := it.numRead + 1 })

/-- The part of `read_value` for a value that brings its own window. -/
def readWindow : Bool × XORIterator :=
  it.tryRead false (readBits 5) fun bits it =>
    let it := { it with leadingZero := bits.toNat % 256 }
    it.tryRead false (readBits 6) fun bits it =>
      let bits := if bits.toNat % 256 = 0 then 64 else bits.toNat % 256
      -- The subtraction is on `uint8_t`.
      { it with trailingZero := (64 + 256 - it.leadingZero - bits) % 256 }.readDelta

def readValue : Bool × XORIterator :=
  it.tryRead false readBit fun control it =>
    if control = false then (true, { it with numRead := it.numRead + 1 })
    else it.tryRead false readBit fun control it =>
      if control = false then it.readDelta else it.readWindow

def readType : ℕ → Byte → ReadM Byte
  | 0, type => return type
  | i + 1, type => do
    let bit ← readBit
    let type := type <<< 1
    if bit = false then return type
    else readType i (type ||| 1#8)

def sizeOfType (type : Byte) : ℕ :=
  if type = 0x02#8 then 14 else if type = 0x06#8 then 17 else if type = 0x0e#8 then 20 else 0

/-- A delta of deltas of `size` bits: values over the half are negative. -/
def signExtend (size : ℕ) (bits : Word) : Word :=
  if bits.toInt > 2 ^ (size - 1) then bits - BitVec.ofNat 64 (2 ^ size) else bits

/-- The end of `next`, with the delta of deltas at hand. -/
def addDelta (deltaDelta : Word) : Bool × XORIterator :=
  let delta := deltaDelta + it.deltaTimestamp
  { it with deltaTimestamp := delta, timestamp := it.timestamp + delta }.readValue

/-- The part of `next` from the third sample on. -/
def readDeltaDelta : Bool × XORIterator :=
  it.tryRead true (readType 4 0#8) fun type it =>
    if type = 0x0f#8 then it.tryRead true (readBits 64) fun bits it => it.addDelta bits
    else if sizeOfType type = 0 then it.addDelta 0#64
    else it.tryRead true (readBits (sizeOfType type)) fun bits it =>
      it.addDelta (signExtend (sizeOfType type) bits)

def next : Bool × XORIterator :=
  if it.err ∨ it.numRead = it.numTotal then (false, it)
  else if it.numRead = 0 then
    it.tryRead true readSignedVarint fun currentT it =>
      it.tryRead true (readBits 64) fun currentV it =>
        (true, { it with timestamp := currentT, value := currentV, numRead := it.numRead + 1 })
  else if it.numRead = 1 then
    it.tryRead true readSignedVarint fun deltaT it =>
      { it with deltaTimestamp := deltaT, timestamp := it.timestamp + deltaT }.readValue
  else it.readDeltaDelta

/-- `while (it->next())`, collecting `at()`; `none` if the fuel runs out. -/
def collect : ℕ → XORIterator → Option (List Sample × XORIterator)
  | 0, _ => none
  | fuel + 1, it =>
    match it.next with
    | (false, it) => some ([], it)
    | (true, it) => (collect fuel it).map fun p => (it.at' :: p.1, p.2)

/-- Every successful `next` counts a sample, so the fuel given is enough. -/
def drain : Option (List Sample × XORIterator) :=
  collect (it.numTotal - it.numRead + 1) it

variable {rest : List Bool} {a : XORAppender} {it : XORIterator}

theorem tryRead_of_consumes {α : Type} {m : ReadM α} {bs : List Bool} {a : α}
    (hm : Consumes Avail m bs a) (it : XORIterator) (h : it.bstream.Avail (bs ++ rest)) :
    ∃ r, r.Avail rest ∧ ∀ onError k,
      it.tryRead onError m k = k a { it with bstream := r } := by
  obtain ⟨r, hrun, hrest⟩ := hm _ _ h
  refine ⟨r, hrest, fun onError k => ?_⟩
  unfold tryRead
  rw [hrun]

theorem consumes_lowBits {num : ℕ} (hnum : num ≤ 64) (x : Word) :
    Consumes Avail (readBits num) (lowBits num x)
      (BitVec.ofNat 64 (x.toNat % 2 ^ num)) := by
  have h := consumes_readBits (lowBits num x)
  rwa [length_lowBits hnum, lowBits,
    value_ofBitVec_drop _ hnum] at h

/-- The decoder's window after a value that `a` writes. -/
def windowAfter (a : XORAppender) (value : Word) (window : ℕ × ℕ) : ℕ × ℕ :=
  let deltaValue := value ^^^ a.value
  if deltaValue = 0#64 ∨ a.fitsWindow deltaValue then window
  else (clampedClz deltaValue, deltaValue.ctz.toNat)

structure Agrees (it : XORIterator) (a : XORAppender) : Prop where
  value_eq : it.value = a.value
  window_eq : a.leadingZero = 0xff ∨
    a.leadingZero = it.leadingZero ∧ a.trailingZero = it.trailingZero
  window_le : it.leadingZero + it.trailingZero ≤ 63

theorem readDelta_of_avail (it : XORIterator) {value : Word}
    (hlead : it.leadingZero ≤ (value ^^^ it.value).clz.toNat)
    (htrail : it.trailingZero ≤ (value ^^^ it.value).ctz.toNat)
    (hle : it.leadingZero + it.trailingZero ≤ 63) (h : it.bstream.Avail (lowBits (64 -
      it.leadingZero - it.trailingZero) ((value ^^^ it.value) >>> it.trailingZero) ++ rest)) :
    ∃ r, r.Avail rest ∧
      it.readDelta = (true, { it with bstream := r, value := value,
                                      numRead := it.numRead + 1 }) := by
  obtain ⟨r, hr, hrun⟩ := tryRead_of_consumes (consumes_lowBits (by omega) _) it h
  refine ⟨r, hr, ?_⟩
  unfold readDelta
  rw [hrun]
  simp only [window_roundTrip hlead htrail (by omega), xor_xor_self]

theorem readWindow_of_avail (it : XORIterator) {value : Word} {lz tz : ℕ} (hlz : lz ≤ 31)
    (hlead : lz ≤ (value ^^^ it.value).clz.toNat) (htz : tz = (value ^^^ it.value).ctz.toNat)
    (hle : lz + tz ≤ 63) (h : it.bstream.Avail (lowBits 5 (BitVec.ofNat 64 lz) ++
      (lowBits 6 (BitVec.ofNat 64 (64 - lz - tz)) ++ (lowBits (64 - lz - tz)
      ((value ^^^ it.value) >>> tz) ++ rest)))) :
    ∃ r, r.Avail rest ∧
      it.readWindow = (true, { it with bstream := r, value := value, leadingZero := lz,
                                       trailingZero := tz, numRead := it.numRead + 1 }) := by
  obtain ⟨r₁, hr₁, hrun₁⟩ := tryRead_of_consumes (consumes_lowBits (by omega) _) it h
  obtain ⟨r₂, hr₂, hrun₂⟩ := tryRead_of_consumes (consumes_lowBits (by omega) _)
    { it with bstream := r₁, leadingZero := lz } hr₁
  obtain ⟨r₃, hr₃, hrun₃⟩ := readDelta_of_avail
    { it with bstream := r₂, leadingZero := lz, trailingZero := tz }
    hlead htz.le hle hr₂
  refine ⟨r₃, hr₃, ?_⟩
  have hread₅ : (BitVec.ofNat 64 ((BitVec.ofNat 64 lz).toNat % 2 ^ 5)).toNat % 256 = lz := by
    simp only [BitVec.toNat_ofNat]
    omega
  -- Sixty-four significant bits are written as zero.
  have hread₆ : (if (BitVec.ofNat 64 ((BitVec.ofNat 64 (64 - lz - tz)).toNat % 2 ^ 6)).toNat %
      256 = 0 then 64 else (BitVec.ofNat 64
        ((BitVec.ofNat 64 (64 - lz - tz)).toNat % 2 ^ 6)).toNat % 256) = 64 - lz - tz := by
    simp only [BitVec.toNat_ofNat]
    split <;> omega
  have htrail : (64 + 256 - lz - (64 - lz - tz)) % 256 = tz := by omega
  unfold readWindow
  rw [hrun₁]
  simp only [hread₅]
  rw [hrun₂]
  simp only [hread₆, htrail]
  exact hrun₃

theorem readValue_of_agrees (it : XORIterator) (hag : it.Agrees a) (value : Word)
    (h : it.bstream.Avail (a.valueCode value ++ rest)) :
    ∃ r, r.Avail rest ∧ it.readValue = (true,
      { it with
        bstream := r
        value := value
        leadingZero := (windowAfter a value (it.leadingZero, it.trailingZero)).1
        trailingZero := (windowAfter a value (it.leadingZero, it.trailingZero)).2
        numRead := it.numRead + 1 }) := by
  unfold readValue windowAfter
  unfold valueCode at h
  rw [← hag.value_eq] at h ⊢
  by_cases hzero : value ^^^ it.value = 0#64
  · simp only [hzero, if_true, true_or] at h ⊢
    obtain ⟨r, hr, hrun⟩ := tryRead_of_consumes (consumes_readBit false) it h
    refine ⟨r, hr, ?_⟩
    rw [hrun, ← BitVec.xor_eq_zero_iff.1 hzero]
    rfl
  · simp only [hzero, if_false, false_or] at h ⊢
    have hsum := clz_add_ctz_lt hzero
    have hclz := clampedClz_le (value ^^^ it.value)
    by_cases hfits : a.fitsWindow (value ^^^ it.value) = true
    · simp only [hfits, if_true] at h ⊢
      obtain ⟨hff, hlead, htrail⟩ := of_decide_eq_true hfits
      obtain ⟨hl, ht⟩ := hag.window_eq.resolve_left hff
      rw [hl] at hlead h
      rw [ht] at htrail h
      rw [append_assoc] at h
      obtain ⟨r₁, hr₁, hrun₁⟩ := tryRead_of_consumes (consumes_readBit true) it
        (show it.bstream.Avail ([true] ++ false :: _) from h)
      obtain ⟨r₂, hr₂, hrun₂⟩ := tryRead_of_consumes (consumes_readBit false)
        { it with bstream := r₁ } hr₁
      obtain ⟨r₃, hr₃, hrun₃⟩ := readDelta_of_avail { it with bstream := r₂ }
        (hlead.trans hclz.2) htrail hag.window_le hr₂
      refine ⟨r₃, hr₃, ?_⟩
      simp only [hrun₁, Bool.true_eq_false, if_false, hrun₂, if_true]
      exact hrun₃
    · have hwin : clampedClz (value ^^^ it.value) +
          (value ^^^ it.value).ctz.toNat ≤ 63 := by omega
      simp only [hfits, Bool.false_eq_true, if_false] at h ⊢
      rw [append_assoc, append_assoc, append_assoc] at h
      obtain ⟨r₁, hr₁, hrun₁⟩ := tryRead_of_consumes (consumes_readBit true) it
        (show it.bstream.Avail ([true] ++ true :: _) from h)
      obtain ⟨r₂, hr₂, hrun₂⟩ := tryRead_of_consumes (consumes_readBit true)
        { it with bstream := r₁ } hr₁
      obtain ⟨r₃, hr₃, hrun₃⟩ := readWindow_of_avail { it with bstream := r₂ }
        hclz.1 hclz.2 rfl hwin hr₂
      refine ⟨r₃, hr₃, ?_⟩
      simp only [hrun₁, Bool.true_eq_false, if_false, hrun₂]
      exact hrun₃

theorem consumes_readType_false (i : ℕ) (type : Byte) :
    Consumes Avail (readType (i + 1) type) [false] (type <<< 1) :=
  (consumes_readBit false).bind (Consumes.pure _)

theorem consumes_readType_true {i : ℕ} {type res : Byte} {bs : List Bool}
    (h : Consumes Avail (readType i (type <<< 1 ||| 1#8)) bs res) :
    Consumes Avail (readType (i + 1) type) (true :: bs) res :=
  (consumes_readBit true).bind h

theorem signExtend_of_bitRange {size : ℕ} (hsize : size = 14 ∨ size = 17 ∨ size = 20)
    {deltaDelta : Word} (h : bitRange deltaDelta size = true) :
    signExtend size (BitVec.ofNat 64 (deltaDelta.toNat % 2 ^ size)) = deltaDelta := by
  obtain ⟨hlo, hhi⟩ := of_decide_eq_true h
  have hlt := deltaDelta.isLt
  rw [BitVec.toInt_eq_toNat_cond] at hlo hhi
  apply BitVec.eq_of_toNat_eq
  unfold signExtend
  rw [BitVec.toInt_eq_toNat_cond]
  simp only [BitVec.toNat_ofNat]
  rcases hsize with rfl | rfl | rfl <;>
    split_ifs at * <;> simp only [BitVec.toNat_sub, BitVec.toNat_ofNat] <;> omega

theorem readDeltaDelta_of_bitRange {deltaDelta : Word} (type : Byte) {size : ℕ} {tag : List Bool}
    (hsize : size = 14 ∨ size = 17 ∨ size = 20) (htype : Consumes Avail (readType 4 0#8) tag type)
    (hne : type ≠ 0x0f#8) (hof : sizeOfType type = size)
    (hrange : bitRange deltaDelta size = true)
    (h : it.bstream.Avail (tag ++ lowBits size deltaDelta ++ rest)) :
    ∃ r, r.Avail rest ∧
      it.readDeltaDelta = { it with bstream := r }.addDelta deltaDelta := by
  rw [append_assoc] at h
  obtain ⟨r₁, hr₁, hrun₁⟩ := tryRead_of_consumes htype it h
  obtain ⟨r₂, hr₂, hrun₂⟩ := tryRead_of_consumes (consumes_lowBits (by omega) _)
    { it with bstream := r₁ } hr₁
  refine ⟨r₂, hr₂, ?_⟩
  unfold readDeltaDelta
  rw [hrun₁]
  simp only [hne, hof, if_false, show size ≠ 0 by omega, hrun₂,
    signExtend_of_bitRange hsize hrange]

theorem readDeltaDelta_of_avail (deltaDelta : Word)
    (h : it.bstream.Avail (deltaDeltaCode deltaDelta ++ rest)) :
    ∃ r, r.Avail rest ∧
      it.readDeltaDelta = { it with bstream := r }.addDelta deltaDelta := by
  have hfalse : ∀ i type, Consumes Avail (readType (i + 1) type) [false] (type <<< 1) :=
    consumes_readType_false
  unfold deltaDeltaCode at h
  split_ifs at h with hzero h14 h17 h20
  · obtain ⟨r, hr, hrun⟩ := tryRead_of_consumes (hfalse 3 0#8) it h
    refine ⟨r, hr, ?_⟩
    unfold readDeltaDelta
    rw [hrun, hzero]
    rfl
  · exact readDeltaDelta_of_bitRange 0x02#8 (Or.inl rfl)
      (consumes_readType_true (hfalse 2 1#8)) (by decide) rfl h14 h
  · exact readDeltaDelta_of_bitRange 0x06#8 (Or.inr (Or.inl rfl))
      (consumes_readType_true (consumes_readType_true (hfalse 1 3#8))) (by decide) rfl h17 h
  · exact readDeltaDelta_of_bitRange 0x0e#8 (Or.inr (Or.inr rfl))
      (consumes_readType_true (consumes_readType_true (consumes_readType_true (hfalse 0 7#8))))
      (by decide) rfl h20 h
  · rw [append_assoc] at h
    have hdone : Consumes Avail (readType 0 0x0f#8) [] 0x0f#8 := Consumes.pure _
    have htype : Consumes Avail (readType 4 0#8) [true, true, true, true] 0x0f#8 :=
      consumes_readType_true (consumes_readType_true (consumes_readType_true
        (consumes_readType_true hdone)))
    obtain ⟨r₁, hr₁, hrun₁⟩ := tryRead_of_consumes htype it h
    obtain ⟨r₂, hr₂, hrun₂⟩ := tryRead_of_consumes (consumes_lowBits le_rfl _)
      { it with bstream := r₁ } hr₁
    refine ⟨r₂, hr₂, ?_⟩
    unfold readDeltaDelta
    rw [hrun₁, if_pos rfl, hrun₂, Nat.mod_eq_of_lt deltaDelta.isLt, BitVec.ofNat_toNat,
      BitVec.setWidth_eq]

structure Synced (it : XORIterator) (a : XORAppender) : Prop extends Agrees it a where
  timestamp_eq : it.timestamp = a.timestamp
  delta_eq : it.deltaTimestamp = a.deltaTimestamp

/-- The decoder after sample number `n`, with its stream at `r`. -/
def after (it : XORIterator) (n : ℕ) (a : XORAppender) (timestamp value : Word)
    (r : BitReader) : XORIterator :=
  let window := if n = 0 then (it.leadingZero, it.trailingZero)
    else windowAfter a value (it.leadingZero, it.trailingZero)
  { it with
    bstream := r
    timestamp := timestamp
    value := value
    deltaTimestamp := if n = 0 then it.deltaTimestamp else timestamp - a.timestamp
    leadingZero := window.1
    trailingZero := window.2
    numRead := n + 1 }

theorem next_of_synced (hs : it.Synced a) (hlt : it.numRead < it.numTotal) (herr : it.err = false)
    (timestamp value : Word)
    (h : it.bstream.Avail (a.sampleCode it.numRead timestamp value ++ rest)) :
    ∃ r, r.Avail rest ∧ it.next = (true, it.after it.numRead a timestamp value r) := by
  have hgo : ¬ (it.err = true ∨ it.numRead = it.numTotal) := by
    rw [herr]
    rintro (hfalse | heq)
    · cases hfalse
    · exact hlt.ne heq
  have hts : a.timestamp + (timestamp - a.timestamp) = timestamp := by
    rw [BitVec.add_comm, BitVec.sub_add_cancel]
  unfold next after
  rw [if_neg hgo]
  unfold sampleCode at h
  by_cases hzero : it.numRead = 0
  · simp only [hzero, if_true] at h ⊢
    rw [append_assoc] at h
    obtain ⟨r₁, hr₁, hrun₁⟩ := tryRead_of_consumes (consumes_readSignedVarint timestamp) it h
    have hvalue := consumes_readBits (ofBitVec value)
    rw [length_ofBitVec, value_ofBitVec, BitVec.ofNat_toNat, BitVec.setWidth_eq] at hvalue
    obtain ⟨r₂, hr₂, hrun₂⟩ := tryRead_of_consumes hvalue { it with bstream := r₁ } hr₁
    refine ⟨r₂, hr₂, ?_⟩
    rw [hrun₁, hrun₂]
    simp only [hzero]
  · simp only [hzero, if_false] at h ⊢
    by_cases hone : it.numRead = 1
    · simp only [hone, if_true] at h ⊢
      rw [append_assoc] at h
      obtain ⟨r₁, hr₁, hrun₁⟩ := tryRead_of_consumes
        (consumes_readSignedVarint (timestamp - a.timestamp)) it h
      obtain ⟨r₂, hr₂, hrun₂⟩ := readValue_of_agrees
        { it with bstream := r₁, deltaTimestamp := timestamp - a.timestamp,
                         timestamp := timestamp }
        ⟨hs.value_eq, hs.window_eq, hs.window_le⟩ value hr₁
      refine ⟨r₂, hr₂, ?_⟩
      rw [hrun₁]
      simp only [hs.timestamp_eq, hts]
      rw [hrun₂]
      simp only [hone]
    · simp only [hone, if_false] at h ⊢
      rw [append_assoc] at h
      obtain ⟨r₁, hr₁, hrun₁⟩ := readDeltaDelta_of_avail _ h
      obtain ⟨r₂, hr₂, hrun₂⟩ := readValue_of_agrees
        { it with bstream := r₁, deltaTimestamp := timestamp - a.timestamp,
                         timestamp := timestamp }
        ⟨hs.value_eq, hs.window_eq, hs.window_le⟩ value hr₁
      refine ⟨r₂, hr₂, ?_⟩
      rw [hrun₁]
      simp only [addDelta, hs.timestamp_eq, hs.delta_eq, BitVec.sub_add_cancel, hts]
      exact hrun₂

theorem Synced.after (hs : it.Synced a) (hzero : it.numRead = 0 → it.deltaTimestamp = 0#64)
    (timestamp value : Word) (r : BitReader) :
    (it.after it.numRead a timestamp value r).Synced
      (a.advance it.numRead timestamp value) := by
  unfold XORIterator.after advance
  by_cases hn : it.numRead = 0
  · simp only [hn, if_true]
    exact ⟨⟨rfl, hs.window_eq, hs.window_le⟩, rfl, hzero hn⟩
  · simp only [hn, if_false]
    refine ⟨⟨rfl, ?_, ?_⟩, rfl, rfl⟩
    · simp only [nextWindow, windowAfter]
      split_ifs
      · exact hs.window_eq
      · exact Or.inr ⟨rfl, rfl⟩
    · simp only [windowAfter]
      split_ifs with hkeep
      · exact hs.window_le
      · rw [not_or] at hkeep
        have hsum := clz_add_ctz_lt hkeep.1
        have hclz := clampedClz_le (value ^^^ a.value)
        simp only
        omega

/-! ## Reading to the end -/

def Counts (it : XORIterator) (r : Bool × XORIterator) : Prop :=
  r.1 = true → r.2.numRead = it.numRead + 1 ∧ r.2.numTotal = it.numTotal

theorem counts_tryRead {α : Type} {it₀ : XORIterator} {onError : Bool} {m : ReadM α}
    {k : α → XORIterator → Bool × XORIterator}
    (h : ∀ a r, Counts it₀ (k a { it with bstream := r })) :
    Counts it₀ (it.tryRead onError m k) := by
  unfold tryRead
  split
  · exact h _ _
  · exact nofun

theorem counts_readDelta (it : XORIterator) : Counts it it.readDelta :=
  counts_tryRead fun _ _ _ => ⟨rfl, rfl⟩

theorem counts_readWindow (it : XORIterator) : Counts it it.readWindow :=
  counts_tryRead fun _ _ => counts_tryRead fun _ _ => counts_readDelta _

theorem counts_readValue (it : XORIterator) : Counts it it.readValue := by
  refine counts_tryRead fun control r => ?_
  split_ifs
  · exact fun _ => ⟨rfl, rfl⟩
  · refine counts_tryRead fun control r => ?_
    split_ifs
    · exact counts_readDelta _
    · exact counts_readWindow _

theorem counts_addDelta (it : XORIterator) (deltaDelta : Word) :
    Counts it (it.addDelta deltaDelta) :=
  counts_readValue _

theorem counts_readDeltaDelta (it : XORIterator) : Counts it it.readDeltaDelta := by
  refine counts_tryRead fun type r => ?_
  split_ifs
  · exact counts_tryRead fun bits r => counts_addDelta _ bits
  · exact counts_addDelta _ _
  · exact counts_tryRead fun bits r => counts_addDelta _ _

theorem counts_next (it : XORIterator) : Counts it it.next := by
  unfold next
  split_ifs
  · exact nofun
  · exact counts_tryRead fun _ _ => counts_tryRead fun _ _ _ => ⟨rfl, rfl⟩
  · exact counts_tryRead fun _ _ => counts_readValue _
  · exact counts_readDeltaDelta it

theorem numRead_ne_of_next (h : it.next.1 = true) : it.numRead ≠ it.numTotal := by
  intro heq
  rw [next, if_pos (Or.inr heq)] at h
  exact Bool.false_ne_true h

theorem exists_collect_eq {fuel : ℕ} (hle : it.numRead ≤ it.numTotal)
    (hfuel : it.numTotal - it.numRead < fuel) : ∃ l it', collect fuel it = some (l, it') ∧
      l.length ≤ it.numTotal - it.numRead := by
  induction fuel generalizing it with
  | zero => omega
  | succ fuel ih =>
    rw [collect]
    cases hnext : it.next with
    | mk ok it₁ =>
      cases ok with
      | false => exact ⟨[], it₁, rfl, Nat.zero_le _⟩
      | true =>
        have htrue : it.next.1 = true := by rw [hnext]
        have hne := numRead_ne_of_next htrue
        obtain ⟨hread, htotal⟩ := counts_next it htrue
        rw [hnext] at hread htotal
        dsimp only at hread htotal
        obtain ⟨l, it', heq, hlen⟩ := @ih it₁ (by omega) (by omega)
        refine ⟨it₁.at' :: l, it', by simp only [heq, Option.map_some], ?_⟩
        rw [length_cons]
        omega

end XORIterator

end PromTCS
