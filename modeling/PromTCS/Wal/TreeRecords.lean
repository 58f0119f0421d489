import PromTCS.Base.Coding
import PromTCS.Label.Label
import PromTCS.Lib.Consume
import Mathlib.Data.BitVec

/-!
# Plain log records

The series and sample records of the write-ahead log, as `log_writer` appends
them and `log_reader` takes them apart. A series record has the fixed fields of
each series and its labels with their lengths; a sample record has the first
sample in full and every later one as differences from the one before it. The
number of elements is not written: the reader goes on while its position `int i`
is before the end of the record.

The reader is a computation over its local variables that stops with a fault
where the source reads outside the record, overflows `int i` or uses a variable
it has not set. Along the bytes a writer produced it consumes exactly these bytes,
as long as they lie at positions an `int` can hold.
-/

namespace PromTCS

open List Consumes

/-- A `TreeRefSeries`; `series_ptr` takes no part in a record. -/
structure TreeRefSeries where
  sgid : Word
  mid : BitVec 16
  lset : Labels
  lsetPtr : Option Labels
  flushedTxn : Word
  logCleanTxn : Word
deriving DecidableEq, Repr

/-- A `TreeRefSample`, its value as a bit pattern. -/
structure TreeRefSample where
  sgid : Word
  mid : BitVec 16
  t : Word
  v : Word
  txn : Word
deriving DecidableEq, Repr

/-- The labels a series stands for: `*lset_ptr` where it is set, `lset` otherwise. -/
def TreeRefSeries.labels (r : TreeRefSeries) : Labels :=
  r.lsetPtr.getD r.lset

/-- The same series with its labels held in `lset`. -/
def TreeRefSeries.owned (r : TreeRefSeries) : TreeRefSeries :=
  { r with lset := r.labels, lsetPtr := none }

namespace LogWriter

open Coding

def kSeries : Byte := 0

def kSample : Byte := 1

/-- What `treeSeries` appends for a label. -/
def label (l : Label) : List Byte :=
  putLengthPrefixedSlice l.label ++ putLengthPrefixedSlice l.value

/-- What `treeSeries` appends for a series: the number of labels is passed to
`PutVarint32`, hence as a `uint32_t`. -/
def oneSeries (r : TreeRefSeries) : List Byte :=
  putFixed16 r.mid ++ putFixed64BE r.sgid ++ putFixed64BE r.flushedTxn ++
    putFixed64BE r.logCleanTxn ++ encodeVarint32 (BitVec.ofNat 32 r.labels.length) ++
    r.labels.flatMap label

/-- `treeSeries` for a vector. -/
def treeSeries (series : List TreeRefSeries) : List Byte :=
  kSeries :: series.flatMap oneSeries

/-- `treeSeries` for a pointer and a number of elements. -/
def treeSeriesArray (series : List TreeRefSeries) (itemSize : BitVec 32) : List Byte :=
  kSeries :: (series.take itemSize.toNat).flatMap oneSeries

def delta (d : Word) : List Byte :=
  encodeVarint64 (Endian.zigzag d)

/-- What the loop of `treeSamples` appends for `s` behind `prev`. -/
def nextSample (prev s : TreeRefSample) : List Byte :=
  delta (s.mid.setWidth 64 - prev.mid.setWidth 64) ++ delta (s.sgid - prev.sgid) ++
    delta (s.t - prev.t) ++ putFixed64BE s.v ++ delta (s.txn - prev.txn)

def nextSamples : TreeRefSample → List TreeRefSample → List Byte
  | _, [] => []
  | prev, s :: rest => nextSample prev s ++ nextSamples s rest

def firstSample (s : TreeRefSample) : List Byte :=
  putFixed16 s.mid ++ putFixed64BE s.sgid ++ putFixed64BE s.t ++ putFixed64BE s.v ++
    putFixed64BE s.txn

/-- `treeSamples` for a vector, which reads `samples[0]` unconditionally. -/
def treeSamples : List TreeRefSample → Option (List Byte)
  | [] => none
  | s :: rest => some (kSample :: firstSample s ++ nextSamples s rest)

/-- `treeSamples` for a pointer and a number of elements: the first element is
written whatever the number is. -/
def treeSamplesArray : List TreeRefSample → BitVec 32 → Option (List Byte)
  | [], _ => none
  | s :: rest, itemNum =>
    some (kSample :: firstSample s ++ nextSamples s (rest.take (itemNum.toNat - 1)))

end LogWriter

namespace LogReader

open Coding

inductive Fault where
  | outOfBounds
  | intOverflow
  | uninitialised
  | diverges
deriving DecidableEq, Repr

structure Vars where
  i : ℤ
  size : Option (BitVec 32)
  result : List Byte
  tmp : Option Word
deriving DecidableEq, Repr

abbrev ReadM := ExceptT Fault (StateM Vars)

/-- The variables before the first element: `i` is 1 and only `result` is set. -/
def Vars.init : Vars where
  i := 1
  size := none
  result := []
  tmp := none

/-- The conversion of a `size_t` to an `int`. -/
def toInt (n : ℕ) : ℤ :=
  (BitVec.ofNat 32 n).toInt

variable (s : List Byte)

/-- `Slice(s.data() + i, s.size() - i)`, which is read from at once. -/
def slice : ReadM (List Byte) := do
  let v ← get
  if 0 ≤ v.i ∧ v.i ≤ s.length then return s.drop v.i.toNat
  else throw .outOfBounds

/-- A fixed-width read at `s.data() + i` and the step `i += k` behind it. -/
def fixed {α : Type} (decode : List Byte → Option α) (k : ℕ) (s : List Byte) : ReadM α := do
  let p ← slice s
  match decode p with
  | none => throw .outOfBounds
  | some x =>
    let v ← get
    if v.i + k < 2 ^ 31 then
      set { v with i := v.i + k }
      return x
    else throw .intOverflow

def fixed16 : ReadM (BitVec 16) :=
  fixed decodeFixed16 2 s

def fixed64BE : ReadM Word :=
  fixed decodeFixed64BE 8 s

/-- `GetVarint32(&tmps, &size); i = s.size() - tmps.size()`, and the value of
`size` behind it. -/
def varint32 : ReadM (BitVec 32) := do
  let tmps ← slice s
  let v ← get
  let (size, tmps) := match getVarint32 tmps with
    | some (x, p) => (some x, p)
    | none => (v.size, tmps)
  set { v with size := size, i := toInt (s.length - tmps.length) }
  match size with
  | some x => return x
  | none => throw .uninitialised

/-- `GetVarint64(&tmps, &tmp); i = s.size() - tmps.size()`, and the value of
`tmp` behind it. -/
def varint64 : ReadM Word := do
  let tmps ← slice s
  let v ← get
  let (tmp, tmps) := match getVarint64 tmps with
    | some (x, p) => (some x, p)
    | none => (v.tmp, tmps)
  set { v with tmp := tmp, i := toInt (s.length - tmps.length) }
  match tmp with
  | some x => return x
  | none => throw .uninitialised

/-- `GetLengthPrefixedSlice(&input, &result)`: the new `result` where the call
succeeds, and the input it leaves. -/
def getLengthPrefixedSlice (input : List Byte) : Option (List Byte) × List Byte :=
  match getVarint32 input with
  | none => (none, input)
  | some (len, input) =>
    if len.toNat ≤ input.length then (some (input.take len.toNat), input.drop len.toNat)
    else (none, input)

/-- `GetLengthPrefixedSlice(&tmps, &result); i = s.size() - tmps.size()`, and the
bytes of `result` behind it. -/
def lengthPrefixed : ReadM (List Byte) := do
  let tmps ← slice s
  let v ← get
  let (res, tmps) := getLengthPrefixedSlice tmps
  let result := res.getD v.result
  set { v with result := result, i := toInt (s.length - tmps.length) }
  return result

def labels (s : List Byte) : ℕ → ReadM Labels
  | 0 => return []
  | n + 1 => do
    let label ← lengthPrefixed s
    let value ← lengthPrefixed s
    let rest ← labels s n
    return ⟨label, value⟩ :: rest

/-- One turn of the loop of `treeSeries`. -/
def oneSeries : ReadM TreeRefSeries := do
  let mid ← fixed16 s
  let sgid ← fixed64BE s
  let flushedTxn ← fixed64BE s
  let logCleanTxn ← fixed64BE s
  let size ← varint32 s
  let lset ← labels s size.toNat
  return ⟨sgid, mid, lset, none, flushedTxn, logCleanTxn⟩

/-- The test `i < s.size()`, in which a negative `i` becomes a large `size_t`. -/
def more (v : Vars) : Bool :=
  decide (0 ≤ v.i) && decide (v.i < s.length)

def seriesLoop (s : List Byte) : ℕ → ReadM (List TreeRefSeries)
  | 0 => throw .diverges
  | fuel + 1 => do
    let v ← get
    if more s v then
      let r ← oneSeries s
      let rest ← seriesLoop s fuel
      return r :: rest
    else return []

/-- `treeSeries`: what is returned, and what is appended to the vector. -/
def treeSeries (fuel : ℕ) (s : List Byte) : Except Fault (Bool × List TreeRefSeries) :=
  match s with
  | [] => .error .outOfBounds
  | type :: _ =>
    if type ≠ LogWriter.kSeries then .ok (false, [])
    else (seriesLoop s fuel Vars.init).1.map fun l => (true, l)

def firstSample : ReadM TreeRefSample := do
  let mid ← fixed16 s
  let sgid ← fixed64BE s
  let t ← fixed64BE s
  let v ← fixed64BE s
  let txn ← fixed64BE s
  return ⟨sgid, mid, t, v, txn⟩

/-- One turn of the loop of `treeSamples` behind the sample `prev`. -/
def nextSample (prev : TreeRefSample) : ReadM TreeRefSample := do
  let mid ← varint64 s
  let sgid ← varint64 s
  let t ← varint64 s
  let v ← fixed64BE s
  let txn ← varint64 s
  return ⟨prev.sgid + Endian.unzigzag sgid,
    (prev.mid.setWidth 64 + Endian.unzigzag mid).setWidth 16,
    prev.t + Endian.unzigzag t, v, prev.txn + Endian.unzigzag txn⟩

def samplesLoop (s : List Byte) : ℕ → TreeRefSample → ReadM (List TreeRefSample)
  | 0, _ => throw .diverges
  | fuel + 1, prev => do
    let v ← get
    if more s v then
      let cur ← nextSample s prev
      let rest ← samplesLoop s fuel cur
      return cur :: rest
    else return []

/-- The body of `treeSamples`: the first sample, then the loop. -/
def allSamples (fuel : ℕ) : ReadM (List TreeRefSample) := do
  let first ← firstSample s
  let rest ← samplesLoop s fuel first
  return first :: rest

/-- `treeSamples`: what is returned, and what is appended to the vector. -/
def treeSamples (fuel : ℕ) (s : List Byte) : Except Fault (Bool × List TreeRefSample) :=
  match s with
  | [] => .error .outOfBounds
  | type :: _ =>
    if type ≠ LogWriter.kSample then .ok (false, [])
    else (allSamples s fuel Vars.init).1.map fun l => (true, l)

theorem treeSeries_cons (fuel : ℕ) (bs : List Byte) :
    treeSeries fuel (LogWriter.kSeries :: bs) =
      (seriesLoop (LogWriter.kSeries :: bs) fuel Vars.init).1.map fun l => (true, l) := by
  simp [treeSeries]

theorem treeSamples_cons (fuel : ℕ) (bs : List Byte) :
    treeSamples fuel (LogWriter.kSample :: bs) =
      (allSamples (LogWriter.kSample :: bs) fuel Vars.init).1.map fun l => (true, l) := by
  simp [treeSamples]

/-- The bytes `bs` are next, at positions an `int` can hold, and the record ends
with `tail` behind them. -/
def Avail (s tail : List Byte) (v : Vars) (bs : List Byte) : Prop :=
  ∃ p : ℕ, v.i = p ∧ p ≤ s.length ∧ s.drop p = bs ++ tail ∧ p + bs.length < 2 ^ 31

variable {n : ℕ} {s : List Byte} {v : Vars} {l : Label}

theorem toInt_of_lt (h : n < 2 ^ 31) : toInt n = n := by
  have hnat : (BitVec.ofNat 32 n).toNat = n := Nat.mod_eq_of_lt (by omega)
  rw [toInt, BitVec.toInt_eq_toNat_of_lt (by omega), hnat]

section Consume

variable {s tail : List Byte}
  {p : ℕ} {bs : List Byte}

theorem avail_of_drop {v : Vars} {rest : List Byte} (hp : p ≤ s.length)
    (hdrop : s.drop p = bs ++ rest ++ tail) (hlt : p + (bs ++ rest).length < 2 ^ 31)
    (hi : v.i = ((p + bs.length : ℕ) : ℤ)) : Avail s tail v rest := by
  have hlen := congrArg List.length hdrop
  simp only [length_drop, length_append] at hlen hlt
  refine ⟨p + bs.length, hi, by omega, ?_, by omega⟩
  rw [← drop_drop, hdrop, append_assoc, drop_left]

theorem slice_eq {v : Vars} (hi : v.i = p) (hp : p ≤ s.length) :
    slice s v = (.ok (s.drop p), v) := by
  unfold slice
  rw [get_bind_apply, hi, if_pos (by omega)]
  rfl

theorem consumes_fixed {α : Type} {decode : List Byte → Option α} {k : ℕ} {x : α}
    (hk : bs.length = k) (hdecode : ∀ rest, decode (bs ++ rest) = some x) :
    Consumes (Avail s tail) (fixed decode k s) bs x := by
  intro v rest h
  obtain ⟨p, hi, hp, hdrop, hlt⟩ := h
  refine ⟨{ v with i := v.i + k }, ?_, avail_of_drop hp hdrop hlt (by simp [hi, hk])⟩
  unfold fixed
  rw [bind_apply_of_ok (slice_eq hi hp), hdrop, append_assoc]
  simp only [hdecode]
  rw [get_bind_apply, if_pos]
  · rfl
  · rw [length_append] at hlt
    omega

theorem consumes_fixed16 (x : BitVec 16) :
    Consumes (Avail s tail) (fixed16 s) (putFixed16 x) x :=
  consumes_fixed rfl (decodeFixed16_putFixed16 x)

theorem consumes_fixed64BE (x : Word) :
    Consumes (Avail s tail) (fixed64BE s) (putFixed64BE x) x :=
  consumes_fixed rfl (decodeFixed64BE_putFixed64BE x)

theorem toInt_sub_length {rest : List Byte} (hp : p ≤ s.length)
    (hdrop : s.drop p = bs ++ rest ++ tail) (hlt : p + (bs ++ rest).length < 2 ^ 31) :
    toInt (s.length - (rest ++ tail).length) = ((p + bs.length : ℕ) : ℤ) := by
  have hlen := congrArg List.length hdrop
  simp only [length_drop, length_append] at hlen hlt ⊢
  rw [toInt_of_lt (by omega)]
  omega

theorem consumes_varint32 (x : BitVec 32) :
    Consumes (Avail s tail) (varint32 s) (encodeVarint32 x) x := by
  intro v rest h
  obtain ⟨p, hi, hp, hdrop, hlt⟩ := h
  refine ⟨{ v with size := some x, i := toInt (s.length - (rest ++ tail).length) }, ?_,
    avail_of_drop hp hdrop hlt (toInt_sub_length hp hdrop hlt)⟩
  unfold varint32
  rw [bind_apply_of_ok (slice_eq hi hp), hdrop, append_assoc,
    get_bind_apply, getVarint32_encodeVarint32]
  rfl

theorem consumes_varint64 (x : Word) :
    Consumes (Avail s tail) (varint64 s) (encodeVarint64 x) x := by
  intro v rest h
  obtain ⟨p, hi, hp, hdrop, hlt⟩ := h
  refine ⟨{ v with tmp := some x, i := toInt (s.length - (rest ++ tail).length) }, ?_,
    avail_of_drop hp hdrop hlt (toInt_sub_length hp hdrop hlt)⟩
  unfold varint64
  rw [bind_apply_of_ok (slice_eq hi hp), hdrop, append_assoc,
    get_bind_apply, getVarint64_encodeVarint64]
  rfl

theorem getLengthPrefixedSlice_append {x : List Byte} (hx : x.length < 2 ^ 32)
    (rest : List Byte) :
    getLengthPrefixedSlice (putLengthPrefixedSlice x ++ rest) = (some x, rest) := by
  have hlen : (BitVec.ofNat 32 x.length).toNat = x.length := Nat.mod_eq_of_lt hx
  rw [getLengthPrefixedSlice, putLengthPrefixedSlice, append_assoc,
    getVarint32_encodeVarint32]
  simp [hlen]

theorem consumes_lengthPrefixed (x : List Byte) :
    Consumes (Avail s tail) (lengthPrefixed s) (putLengthPrefixedSlice x) x := by
  intro v rest h
  obtain ⟨p, hi, hp, hdrop, hlt⟩ := h
  have hx : x.length < 2 ^ 32 := by
    simp only [putLengthPrefixedSlice, length_append] at hlt
    omega
  refine ⟨{ v with result := x, i := toInt (s.length - (rest ++ tail).length) }, ?_,
    avail_of_drop hp hdrop hlt (toInt_sub_length hp hdrop hlt)⟩
  unfold lengthPrefixed
  rw [bind_apply_of_ok (slice_eq hi hp), hdrop, append_assoc,
    get_bind_apply, getLengthPrefixedSlice_append hx]
  rfl

theorem consumes_labels (lbs : Labels) :
    Consumes (Avail s tail) (labels s lbs.length) (lbs.flatMap LogWriter.label) lbs := by
  induction lbs with
  | nil => exact Consumes.pure []
  | cons l lbs ih =>
    rw [flatMap_cons, LogWriter.label, append_assoc, length_cons]
    unfold labels
    refine (consumes_lengthPrefixed l.label).bind ?_
    refine (consumes_lengthPrefixed l.value).bind ?_
    exact ih.bind_pure

theorem consumes_oneSeries {r : TreeRefSeries} (hr : r.labels.length < 2 ^ 32) :
    Consumes (Avail s tail) (oneSeries s) (LogWriter.oneSeries r) r.owned := by
  have hsize : (BitVec.ofNat 32 r.labels.length).toNat = r.labels.length :=
    Nat.mod_eq_of_lt hr
  simp only [LogWriter.oneSeries, append_assoc]
  unfold oneSeries
  refine (consumes_fixed16 r.mid).bind ?_
  refine (consumes_fixed64BE r.sgid).bind ?_
  refine (consumes_fixed64BE r.flushedTxn).bind ?_
  refine (consumes_fixed64BE r.logCleanTxn).bind ?_
  refine (consumes_varint32 _).bind ?_
  rw [hsize]
  exact (consumes_labels r.labels).bind_pure

theorem consumes_firstSample (x : TreeRefSample) :
    Consumes (Avail s tail) (firstSample s) (LogWriter.firstSample x) x := by
  simp only [LogWriter.firstSample, append_assoc]
  unfold firstSample
  refine (consumes_fixed16 x.mid).bind ?_
  refine (consumes_fixed64BE x.sgid).bind ?_
  refine (consumes_fixed64BE x.t).bind ?_
  refine (consumes_fixed64BE x.v).bind ?_
  exact (consumes_fixed64BE x.txn).bind_pure

theorem consumes_nextSample (prev x : TreeRefSample) :
    Consumes (Avail s tail) (nextSample s prev) (LogWriter.nextSample prev x) x := by
  simp only [LogWriter.nextSample, LogWriter.delta, append_assoc]
  unfold nextSample
  refine (consumes_varint64 _).bind ?_
  refine (consumes_varint64 _).bind ?_
  refine (consumes_varint64 _).bind ?_
  refine (consumes_fixed64BE x.v).bind ?_
  simp only [Endian.unzigzag_zigzag, add_sub_cancel]
  have htxn : Consumes (Avail s tail) (varint64 s)
      (encodeVarint64 (Endian.zigzag (x.txn - prev.txn))) _ := consumes_varint64 _
  have hlast := htxn.bind_pure (f := fun txn => (⟨x.sgid, (x.mid.setWidth 64).setWidth 16, x.t,
    x.v, prev.txn + Endian.unzigzag txn⟩ : TreeRefSample))
  simpa [Endian.unzigzag_zigzag] using hlast

end Consume

section Loop

variable {s : List Byte}
  {v : Vars} {bs : List Byte}

theorem more_of_avail (h : Avail s [] v bs) : more s v = !bs.isEmpty := by
  obtain ⟨p, hi, hp, hdrop, -⟩ := h
  have hlen := congrArg List.length hdrop
  simp only [length_drop, append_nil] at hlen
  cases bs with
  | nil =>
    have hend : p = s.length := by
      rw [length_nil] at hlen
      omega
    simp [more, hi, hend]
  | cons b bs =>
    rw [length_cons] at hlen
    simp [more, hi]
    omega

theorem run_cons {α : Type} {m : ReadM α} {k : α → ReadM (List α)} {rest : List Byte} {x : α}
    {l : List α} (hm : Consumes (Avail s []) m bs x) (h : Avail s [] v (bs ++ rest))
    (hk : ∀ v', Avail s [] v' rest → (k x v').1 = .ok l) :
    ((do let y ← m; let ys ← k y; return y :: ys : ReadM (List α)) v).1 = .ok (x :: l) := by
  obtain ⟨v', hrun, h'⟩ := hm v rest h
  have htail := hk v' h'
  rw [bind_apply_of_ok hrun]
  rw [bind_apply_of_ok (Prod.ext htail rfl : k x v' = (.ok l, (k x v').2))]
  rfl

theorem length_le_flatMap {α : Type} {f : α → List Byte} (hf : ∀ x, 0 < (f x).length)
    (l : List α) : l.length ≤ (l.flatMap f).length := by
  induction l with
  | nil => exact Nat.zero_le 0
  | cons x l ih =>
    have hx := hf x
    rw [flatMap_cons, length_append, length_cons]
    omega

theorem length_labels_le (r : TreeRefSeries) :
    r.labels.length ≤ (LogWriter.oneSeries r).length := by
  have hlabel : ∀ l, 0 < (LogWriter.label l).length := fun l => by
    have hpos := length_encodeVarint32_pos (BitVec.ofNat 32 l.label.length)
    rw [LogWriter.label, putLengthPrefixedSlice, length_append, length_append]
    omega
  rw [LogWriter.oneSeries, length_append]
  exact (length_le_flatMap hlabel r.labels).trans (Nat.le_add_left _ _)

theorem seriesLoop_eq {fuel : ℕ} {series : List TreeRefSeries} (hfuel : series.length < fuel)
    (h : Avail s [] v (series.flatMap LogWriter.oneSeries)) :
    (seriesLoop s fuel v).1 = .ok (series.map TreeRefSeries.owned) := by
  induction series generalizing fuel v with
  | nil =>
    obtain ⟨fuel, rfl⟩ : ∃ m, fuel = m + 1 := Nat.exists_eq_succ_of_ne_zero (by omega)
    unfold seriesLoop
    rw [get_bind_apply, more_of_avail h]
    rfl
  | cons r series ih =>
    rw [length_cons] at hfuel
    obtain ⟨fuel, rfl⟩ : ∃ m, fuel = m + 1 := Nat.exists_eq_succ_of_ne_zero (by omega)
    have hsome : (LogWriter.oneSeries r ++ series.flatMap LogWriter.oneSeries).isEmpty =
        false := rfl
    have hr : r.labels.length < 2 ^ 32 := by
      obtain ⟨p, -, -, -, hlt⟩ := h
      have hle := length_labels_le r
      rw [flatMap_cons, length_append] at hlt
      omega
    rw [flatMap_cons] at h
    unfold seriesLoop
    rw [get_bind_apply, more_of_avail h, hsome]
    exact run_cons (consumes_oneSeries hr) h fun v' h' => ih (by omega) h'

theorem samplesLoop_eq {fuel : ℕ} {prev : TreeRefSample} {samples : List TreeRefSample}
    (hfuel : samples.length < fuel) (h : Avail s [] v (LogWriter.nextSamples prev samples)) :
    (samplesLoop s fuel prev v).1 = .ok samples := by
  induction samples generalizing fuel prev v with
  | nil =>
    obtain ⟨fuel, rfl⟩ : ∃ m, fuel = m + 1 := Nat.exists_eq_succ_of_ne_zero (by omega)
    unfold samplesLoop
    rw [get_bind_apply, more_of_avail h]
    rfl
  | cons x samples ih =>
    rw [length_cons] at hfuel
    obtain ⟨fuel, rfl⟩ : ∃ m, fuel = m + 1 := Nat.exists_eq_succ_of_ne_zero (by omega)
    have hsome : (LogWriter.nextSample prev x ++
        LogWriter.nextSamples x samples).isEmpty = false := by
      simp [LogWriter.nextSample, putFixed64BE]
    rw [LogWriter.nextSamples] at h
    unfold samplesLoop
    rw [get_bind_apply, more_of_avail h, hsome]
    exact run_cons (consumes_nextSample prev x) h fun v' h' => ih (by omega) h'

theorem avail_init {type : Byte} (h : (type :: bs).length < 2 ^ 31) :
    Avail (type :: bs) [] Vars.init bs := by
  rw [length_cons] at h
  exact ⟨1, rfl, by simp, by simp, by omega⟩

end Loop

theorem treeSeries_eq {fuel : ℕ} {series : List TreeRefSeries} (hfuel : series.length < fuel)
    (hlen : (LogWriter.treeSeries series).length < 2 ^ 31) :
    treeSeries fuel (LogWriter.treeSeries series) =
      .ok (true, series.map TreeRefSeries.owned) := by
  rw [LogWriter.treeSeries, treeSeries_cons, seriesLoop_eq hfuel (avail_init hlen)]
  rfl

theorem treeSamples_eq {fuel : ℕ} {x : TreeRefSample} {samples : List TreeRefSample}
    (hfuel : samples.length < fuel) {bs : List Byte}
    (hbs : LogWriter.treeSamples (x :: samples) = some bs) (hlen : bs.length < 2 ^ 31) :
    treeSamples fuel bs = .ok (true, x :: samples) := by
  obtain rfl := Option.some.inj hbs
  have hall := run_cons (k := samplesLoop _ fuel) (consumes_firstSample x) (avail_init hlen)
    fun v h => samplesLoop_eq hfuel h
  rw [cons_append, treeSamples_cons, allSamples, hall]
  rfl

theorem toInt_neg (hle : 2 ^ 31 ≤ n) (hlt : n < 2 ^ 32) : toInt n < 0 := by
  have hnat : (BitVec.ofNat 32 n).toNat = n := Nat.mod_eq_of_lt hlt
  rw [toInt, BitVec.toInt_neg_iff, hnat]
  omega

theorem lengthPrefixed_of_neg (hi : v.i < 0) : lengthPrefixed s v = (.error .outOfBounds, v) := by
  have hslice : slice s v = (.error .outOfBounds, v) := by
    unfold slice
    rw [get_bind_apply, if_neg (by omega)]
    rfl
  exact bind_apply_of_error hslice

theorem labels_of_longName {tail : List Byte} (hle : 2 ^ 31 ≤ l.label.length)
    (hlt : s.length - tail.length < 2 ^ 32)
    (h : Avail s (putLengthPrefixedSlice l.label ++ tail) v []) :
    ∃ v', labels s (n + 1) v = (.error .outOfBounds, v') := by
  obtain ⟨p, hi, hp, hdrop, -⟩ := h
  rw [nil_append] at hdrop
  have hlen := congrArg List.length hdrop
  simp only [length_drop, length_append, putLengthPrefixedSlice] at hlen
  have hname : lengthPrefixed s v = (.ok l.label,
      { v with result := l.label, i := toInt (s.length - tail.length) }) := by
    unfold lengthPrefixed
    rw [bind_apply_of_ok (slice_eq hi hp), hdrop,
      get_bind_apply,
      getLengthPrefixedSlice_append (by omega)]
    rfl
  refine ⟨{ v with result := l.label, i := toInt (s.length - tail.length) }, ?_⟩
  rw [labels, bind_apply_of_ok hname]
  exact bind_apply_of_error (lengthPrefixed_of_neg (toInt_neg (by omega) hlt))

theorem oneSeries_of_longName {tail : List Byte} {r : TreeRefSeries} {lbs : Labels}
    (hl : r.labels = l :: lbs) (hcount : r.labels.length < 2 ^ 32) (hle : 2 ^ 31 ≤ l.label.length)
    (hlt : s.length - tail.length < 2 ^ 32) (h : Avail s (putLengthPrefixedSlice l.label ++ tail) v
      (putFixed16 r.mid ++ (putFixed64BE r.sgid ++ (putFixed64BE r.flushedTxn ++ (putFixed64BE
      r.logCleanTxn ++ (encodeVarint32 (BitVec.ofNat 32 r.labels.length) ++ [])))))) :
    ∃ v', oneSeries s v = (.error .outOfBounds, v') := by
  have hsize : (BitVec.ofNat 32 r.labels.length).toNat = lbs.length + 1 := by
    rw [BitVec.toNat_ofNat, Nat.mod_eq_of_lt hcount, hl, length_cons]
  unfold oneSeries
  obtain ⟨v₁, hrun, h⟩ := (consumes_fixed16 r.mid).bind_apply _ h
  rw [hrun]
  obtain ⟨v₂, hrun, h⟩ := (consumes_fixed64BE r.sgid).bind_apply _ h
  rw [hrun]
  obtain ⟨v₃, hrun, h⟩ := (consumes_fixed64BE r.flushedTxn).bind_apply _ h
  rw [hrun]
  obtain ⟨v₄, hrun, h⟩ := (consumes_fixed64BE r.logCleanTxn).bind_apply _ h
  rw [hrun]
  obtain ⟨v₅, hrun, h⟩ := (consumes_varint32 _).bind_apply _ h
  rw [hrun, hsize]
  obtain ⟨v', hlabels⟩ := labels_of_longName (n := lbs.length) hle hlt h
  exact ⟨v', bind_apply_of_error hlabels⟩

theorem treeSeries_of_longName {r : TreeRefSeries} {lbs : Labels} (hl : r.labels = l :: lbs)
    (hcount : r.labels.length < 2 ^ 32) (hle : 2 ^ 31 ≤ l.label.length)
    (hlt : l.label.length < 2 ^ 31 + 2 ^ 30) (series : List TreeRefSeries) (fuel : ℕ)
    (res : Bool × List TreeRefSeries) :
    treeSeries fuel (LogWriter.treeSeries (r :: series)) ≠ .ok res := by
  obtain ⟨tail, htail⟩ : ∃ tail, tail = putLengthPrefixedSlice l.value ++
    (lbs.flatMap LogWriter.label ++ series.flatMap LogWriter.oneSeries) := ⟨_, rfl⟩
  obtain ⟨s, hs⟩ : ∃ s, s = LogWriter.treeSeries (r :: series) := ⟨_, rfl⟩
  have hsplit : s = LogWriter.kSeries :: (putFixed16 r.mid ++ (putFixed64BE r.sgid ++
      (putFixed64BE r.flushedTxn ++ (putFixed64BE r.logCleanTxn ++
        (encodeVarint32 (BitVec.ofNat 32 r.labels.length) ++ []))))) ++
      (putLengthPrefixedSlice l.label ++ tail) := by
    rw [hs, htail, LogWriter.treeSeries, flatMap_cons, LogWriter.oneSeries, hl,
      flatMap_cons, LogWriter.label]
    simp only [append_assoc, append_nil, cons_append]
  have hcountLen := length_encodeVarint32_le (BitVec.ofNat 32 r.labels.length)
  have hnameLen := length_encodeVarint32_le (BitVec.ofNat 32 l.label.length)
  have hbound : s.length - tail.length < 2 ^ 32 := by
    rw [hsplit]
    simp only [length_append, length_cons, length_putFixed16, length_putFixed64BE,
      length_nil, putLengthPrefixedSlice]
    omega
  have havail : Avail s (putLengthPrefixedSlice l.label ++ tail) Vars.init _ :=
    ⟨1, rfl, by simp [hsplit], by rw [hsplit]; rfl, by
      simp only [length_append, length_putFixed16, length_putFixed64BE, length_nil]
      omega⟩
  obtain ⟨v', hone⟩ := oneSeries_of_longName hl hcount hle hbound havail
  have hmore : more s Vars.init = true := by
    simp [more, Vars.init, hsplit]
    omega
  have hloop : (seriesLoop s fuel Vars.init).1 = .error .outOfBounds ∨
      (seriesLoop s fuel Vars.init).1 = .error .diverges := by
    cases fuel with
    | zero => exact Or.inr rfl
    | succ fuel =>
      left
      unfold seriesLoop
      rw [get_bind_apply, if_pos hmore,
        bind_apply_of_error hone]
  rw [LogWriter.treeSeries, treeSeries_cons, ← LogWriter.treeSeries, ← hs]
  rcases hloop with h | h <;> simp [h, Except.map]

end LogReader

/-- A list that is written to the log as one record. -/
inductive PlainRecord where
  | series (l : List TreeRefSeries)
  | samples (l : List TreeRefSample)
deriving DecidableEq, Repr

namespace PlainRecord

def written : PlainRecord → Option (List Byte)
  | series l => some (LogWriter.treeSeries l)
  | samples l => LogWriter.treeSamples l

def writtenArray : PlainRecord → Option (List Byte)
  | series l => some (LogWriter.treeSeriesArray l (BitVec.ofNat 32 l.length))
  | samples l => LogWriter.treeSamplesArray l (BitVec.ofNat 32 l.length)

/-- The reader returns from `bytes` with the list of the record. -/
def ReadBack (bytes : List Byte) : PlainRecord → Prop
  | series l => ∃ fuel, LogReader.treeSeries fuel bytes = .ok (true, l.map TreeRefSeries.owned)
  | samples l => ∃ fuel, LogReader.treeSamples fuel bytes = .ok (true, l)

def RoundTrip (r : PlainRecord) : Prop :=
  (∃ bytes, r.written = some bytes ∧ r.ReadBack bytes) ∧
    ∃ bytes, r.writtenArray = some bytes ∧ r.ReadBack bytes

theorem toNat_length {α : Type} {l : List α} (h : l.length < 2 ^ 32) :
    (BitVec.ofNat 32 l.length).toNat = l.length :=
  Nat.mod_eq_of_lt h

theorem length_le_nextSamples (x : TreeRefSample) (l : List TreeRefSample) :
    l.length ≤ (LogWriter.nextSamples x l).length := by
  induction l generalizing x with
  | nil => exact Nat.zero_le 0
  | cons y l ih =>
    have hle := ih y
    simp only [LogWriter.nextSamples, LogWriter.nextSample, length_append,
      length_cons, Coding.length_putFixed64BE]
    omega

theorem writtenArray_series {l : List TreeRefSeries} (h : l.length < 2 ^ 32) :
    (series l).writtenArray = (series l).written := by
  rw [writtenArray, written, LogWriter.treeSeriesArray, toNat_length h, take_length,
    LogWriter.treeSeries]

theorem writtenArray_eq {r : PlainRecord} {bytes : List Byte} (h : r.written = some bytes)
    (hlen : bytes.length < 2 ^ 32) : r.writtenArray = some bytes := by
  rw [← h]
  cases r with
  | series l =>
    obtain rfl := Option.some.inj h
    exact writtenArray_series (((LogReader.length_le_flatMap (f := LogWriter.oneSeries)
      (fun _ => Nat.succ_pos _) l).trans (Nat.le_succ _)).trans_lt hlen)
  | samples l =>
    cases l with
    | nil => rfl
    | cons x l =>
      obtain rfl := Option.some.inj h
      have hl : (x :: l).length < 2 ^ 32 := by
        have hle := length_le_nextSamples x l
        simp only [length_append, length_cons] at hlen ⊢
        omega
      rw [writtenArray, written, LogWriter.treeSamplesArray, toNat_length hl,
        length_cons, Nat.add_sub_cancel, take_length, LogWriter.treeSamples]

theorem readBack_of_written {r : PlainRecord} {bytes : List Byte} (h : r.written = some bytes)
    (hlen : bytes.length < 2 ^ 31) : r.ReadBack bytes := by
  cases r with
  | series l =>
    obtain rfl := Option.some.inj h
    exact ⟨l.length + 1, LogReader.treeSeries_eq (Nat.lt_succ_self _) hlen⟩
  | samples l =>
    cases l with
    | nil => exact absurd h (Option.some_ne_none bytes).symm
    | cons x l => exact ⟨l.length + 1, LogReader.treeSamples_eq (Nat.lt_succ_self _) h hlen⟩

end PlainRecord

/-- Every record shorter than 2 GiB round trips through either overload. -/
theorem plainRecord_roundTrip (r : PlainRecord) (hne : r ≠ .samples [])
    (hlen : ∀ bytes, r.written = some bytes → bytes.length < 2 ^ 31) : r.RoundTrip := by
  obtain ⟨bytes, h⟩ : ∃ bytes, r.written = some bytes := by
    match r, hne with
    | .series l, _ => exact ⟨_, rfl⟩
    | .samples (x :: l), _ => exact ⟨_, rfl⟩
  have hlt := hlen bytes h
  have hread := PlainRecord.readBack_of_written h hlt
  exact ⟨⟨bytes, h, hread⟩, bytes, PlainRecord.writtenArray_eq h (hlt.trans (by decide)), hread⟩

/-- Two samples of different series, with differences that wrap around. -/
theorem plainRecord_roundTrip_twoSamples :
    (PlainRecord.samples [⟨0, 0xFFFF, 0, 0x3FF0000000000000, 1⟩,
      ⟨-1, 0, 0x8000000000000000, 0, 0⟩]).RoundTrip := by
  refine plainRecord_roundTrip _ (by decide) fun bytes h => ?_
  obtain rfl := Option.some.inj h
  decide

/-- A series whose label name has 2 GiB is not read back. -/
theorem plainRecord_longName :
    ¬ (PlainRecord.series
      [⟨0, 0, [⟨List.replicate (2 ^ 31) 97, []⟩], none, 0, 0⟩]).RoundTrip := by
  have hlen : (List.replicate (2 ^ 31) (97 : Byte)).length = 2 ^ 31 := length_replicate
  revert hlen
  generalize List.replicate (2 ^ 31) (97 : Byte) = name
  rintro hlen ⟨⟨bytes, h, fuel, hread⟩, -⟩
  obtain rfl := Option.some.inj h
  exact LogReader.treeSeries_of_longName rfl (by simp [TreeRefSeries.labels]) hlen.ge
    (by simp [hlen]) [] fuel _ hread

end PromTCS
