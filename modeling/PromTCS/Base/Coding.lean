import PromTCS.Base.Endian
import Mathlib.Tactic.IntervalCases
import Mathlib.Tactic.Ring

/-!
# Fixed-width and variable-length integers

The encodings of `leveldb/util/coding`, in which the log records and the keys of
the tables are written: `PutFixed16`, `PutFixed32` and `PutFixed64` are little-endian,
`PutFixed64BE` is big-endian, and a varint has seven bits to a byte, least significant
first, with the top bit set on all but the last. A `Put` function is the bytes it appends.
A function that reads from a pointer is given the bytes from there on and returns `none`
where it would read past them.
-/

namespace PromTCS

open List

namespace Coding

def putFixed16 (value : BitVec 16) : List Byte :=
  [value.setWidth 8, (value >>> 8).setWidth 8]

variable (value : Word)

def putFixed64BE : List Byte :=
  [(value >>> 56).setWidth 8, (value >>> 48).setWidth 8, (value >>> 40).setWidth 8,
    (value >>> 32).setWidth 8, (value >>> 24).setWidth 8, (value >>> 16).setWidth 8,
    (value >>> 8).setWidth 8, value.setWidth 8]

def decodeFixed16 : List Byte → Option (BitVec 16)
  | b₀ :: b₁ :: _ => some (b₀.setWidth 16 ||| b₁.setWidth 16 <<< 8)
  | _ => none

def decodeFixed64BE : List Byte → Option Word
  | b₀ :: b₁ :: b₂ :: b₃ :: b₄ :: b₅ :: b₆ :: b₇ :: _ =>
    some (b₀.setWidth 64 <<< 56 ||| b₁.setWidth 64 <<< 48 ||| b₂.setWidth 64 <<< 40 |||
      b₃.setWidth 64 <<< 32 ||| b₄.setWidth 64 <<< 24 ||| b₅.setWidth 64 <<< 16 |||
      b₆.setWidth 64 <<< 8 ||| b₇.setWidth 64)
  | _ => none

@[simp] theorem length_putFixed16 (value : BitVec 16) : (putFixed16 value).length = 2 := rfl

@[simp] theorem length_putFixed64BE : (putFixed64BE value).length = 8 := rfl

theorem decodeFixed16_putFixed16 (value : BitVec 16) (rest : List Byte) :
    decodeFixed16 (putFixed16 value ++ rest) = some value := by
  simp only [putFixed16, cons_append, decodeFixed16, Option.some.injEq]
  apply BitVec.eq_of_getLsbD_eq
  intro i hi
  simp only [BitVec.getLsbD_or, BitVec.getLsbD_shiftLeft, BitVec.getLsbD_setWidth,
    BitVec.getLsbD_ushiftRight]
  grind

theorem decodeFixed64BE_putFixed64BE (rest : List Byte) :
    decodeFixed64BE (putFixed64BE value ++ rest) = some value := by
  simp only [putFixed64BE, cons_append, decodeFixed64BE, Option.some.injEq]
  apply BitVec.eq_of_getLsbD_eq
  intro i hi
  simp only [BitVec.getLsbD_or, BitVec.getLsbD_shiftLeft, BitVec.getLsbD_setWidth,
    BitVec.getLsbD_ushiftRight]
  have hbyte : i / 8 < 8 := by omega
  interval_cases i / 8 <;> grind

/-- `n` bytes of a number, the least significant first. -/
def encodeFixed : ℕ → ℕ → List Byte
  | 0, _ => []
  | n + 1, value => BitVec.ofNat 8 value :: encodeFixed n (value / 256)

/-- The number in the first `n` bytes. -/
def decodeFixed : ℕ → List Byte → ℕ
  | 0, _ => 0
  | n + 1, bytes => (bytes.headD 0).toNat + 256 * decodeFixed n bytes.tail

def putFixed32 (value : BitVec 32) : List Byte := encodeFixed 4 value.toNat

def putFixed64 : List Byte := encodeFixed 8 value.toNat

def getFixed32 (input : List Byte) : Option (BitVec 32 × List Byte) :=
  if input.length < 4 then none else some (BitVec.ofNat 32 (decodeFixed 4 input), input.drop 4)

def getFixed64 (input : List Byte) : Option (Word × List Byte) :=
  if input.length < 8 then none else some (BitVec.ofNat 64 (decodeFixed 8 input), input.drop 8)

theorem length_encodeFixed (n value : ℕ) : (encodeFixed n value).length = n := by
  induction n generalizing value with
  | zero => rfl
  | succ n ih => rw [encodeFixed, length_cons, ih]

theorem decodeFixed_encodeFixed (n value : ℕ) (rest : List Byte) :
    decodeFixed n (encodeFixed n value ++ rest) = value % 256 ^ n := by
  induction n generalizing value with
  | zero => rw [Nat.pow_zero, Nat.mod_one, decodeFixed]
  | succ n ih =>
    have hpow : 256 ^ (n + 1) = 256 * 256 ^ n := Nat.pow_succ'
    rw [encodeFixed, cons_append, decodeFixed, headD_cons, tail_cons, ih,
      BitVec.toNat_ofNat, hpow]
    exact Nat.mod_mul.symm

theorem getFixed32_putFixed32 (value : BitVec 32) (rest : List Byte) :
    getFixed32 (putFixed32 value ++ rest) = some (value, rest) := by
  have hlen := length_encodeFixed 4 value.toNat
  have hlong : ¬ (putFixed32 value ++ rest).length < 4 := by
    rw [length_append, putFixed32, hlen]
    exact Nat.not_lt.2 (Nat.le_add_right _ _)
  have hlt : value.toNat < 256 ^ 4 := value.isLt
  rw [getFixed32, if_neg hlong, putFixed32, decodeFixed_encodeFixed, drop_left' hlen,
    Nat.mod_eq_of_lt hlt, BitVec.ofNat_toNat, BitVec.setWidth_eq]

theorem getFixed64_putFixed64 (rest : List Byte) :
    getFixed64 (putFixed64 value ++ rest) = some (value, rest) := by
  have hlen := length_encodeFixed 8 value.toNat
  have hlong : ¬ (putFixed64 value ++ rest).length < 8 := by
    rw [length_append, putFixed64, hlen]
    exact Nat.not_lt.2 (Nat.le_add_right _ _)
  have hlt : value.toNat < 256 ^ 8 := value.isLt
  rw [getFixed64, if_neg hlong, putFixed64, decodeFixed_encodeFixed, drop_left' hlen,
    Nat.mod_eq_of_lt hlt, BitVec.ofNat_toNat, BitVec.setWidth_eq]

section Varint

variable {w : ℕ}

/-- The loop of `EncodeVarint64`. The argument `fuel` bounds the bytes before the
last one. -/
def encodeVarintLoop : ℕ → BitVec w → List Byte
  | 0, v => [v.setWidth 8]
  | fuel + 1, v =>
    if 128 ≤ v.toNat then (v ||| 128#w).setWidth 8 :: encodeVarintLoop fuel (v >>> 7)
    else [v.setWidth 8]

/-- The loop of `GetVarint64Ptr` and `GetVarint32PtrFallback`, which reads at most
`n` bytes. It returns the value and the bytes behind it. -/
def getVarintLoop : ℕ → ℕ → BitVec w → List Byte → Option (BitVec w × List Byte)
  | 0, _, _, _ => none
  | _ + 1, _, _, [] => none
  | n + 1, shift, result, b :: p =>
    let byte := b.setWidth w
    if byte &&& 128#w ≠ 0#w then
      getVarintLoop n (shift + 7) (result ||| (byte &&& 127#w) <<< shift) p
    else some (result ||| byte <<< shift, p)

/-- `EncodeVarint64`, with the ten bytes of its buffer. -/
def encodeVarint64 (v : Word) : List Byte :=
  encodeVarintLoop 9 v

variable (v : BitVec 32)

/-- `EncodeVarint32` tells the five lengths apart by comparisons. -/
def encodeVarint32 : List Byte :=
  if v.toNat < 2 ^ 7 then [v.setWidth 8]
  else if v.toNat < 2 ^ 14 then
    [(v ||| 128#32).setWidth 8, (v >>> 7).setWidth 8]
  else if v.toNat < 2 ^ 21 then
    [(v ||| 128#32).setWidth 8, (v >>> 7 ||| 128#32).setWidth 8, (v >>> 14).setWidth 8]
  else if v.toNat < 2 ^ 28 then
    [(v ||| 128#32).setWidth 8, (v >>> 7 ||| 128#32).setWidth 8,
      (v >>> 14 ||| 128#32).setWidth 8, (v >>> 21).setWidth 8]
  else
    [(v ||| 128#32).setWidth 8, (v >>> 7 ||| 128#32).setWidth 8,
      (v >>> 14 ||| 128#32).setWidth 8, (v >>> 21 ||| 128#32).setWidth 8,
      (v >>> 28).setWidth 8]

/-- `GetVarint64Ptr`: the shift runs from 0 to 63. -/
def getVarint64 (p : List Byte) : Option (Word × List Byte) :=
  getVarintLoop 10 0 0#64 p

/-- `GetVarint32PtrFallback`: the shift runs from 0 to 28. -/
def getVarint32PtrFallback (p : List Byte) : Option (BitVec 32 × List Byte) :=
  getVarintLoop 5 0 0#32 p

/-- `GetVarint32Ptr`, with its short cut for a single byte. -/
def getVarint32 (p : List Byte) : Option (BitVec 32 × List Byte) :=
  match p with
  | b :: rest =>
    if b.setWidth 32 &&& 128#32 = 0#32 then some (b.setWidth 32, rest)
    else getVarint32PtrFallback p
  | [] => getVarint32PtrFallback p

/-- `PutLengthPrefixedSlice`: the size is passed on as a `uint32_t`. -/
def putLengthPrefixedSlice (value : List Byte) : List Byte :=
  encodeVarint32 (BitVec.ofNat 32 value.length) ++ value

theorem getLsbD_payloadMask (hw : 7 < w) (i : ℕ) : (127#w).getLsbD i = decide (i < 7) := by
  rw [BitVec.getLsbD_ofNat, show 127 = 2 ^ 7 - 1 from rfl, Nat.testBit_two_pow_sub_one]
  by_cases hi : i < 7
  · simp [hi, hi.trans hw]
  · simp [hi]

theorem getLsbD_moreMask (hw : 7 < w) (i : ℕ) : (128#w).getLsbD i = decide (i = 7) := by
  rw [BitVec.getLsbD_ofNat, show 128 = 2 ^ 7 from rfl, Nat.testBit_two_pow]
  by_cases hi : i = 7
  · simp [hi, hw]
  · simp [hi, Ne.symm hi]

theorem and_moreMask_eq_zero_iff (hw : 7 < w) (v : BitVec w) :
    v &&& 128#w = 0#w ↔ v.getLsbD 7 = false := by
  constructor
  · intro h
    have hbit := congrArg (fun x : BitVec w => x.getLsbD 7) h
    simpa [BitVec.getLsbD_and, getLsbD_moreMask hw] using hbit
  · intro h
    apply BitVec.eq_of_getLsbD_eq
    intro i _
    rw [BitVec.getLsbD_and, getLsbD_moreMask hw, BitVec.getLsbD_zero]
    by_cases hi : i = 7
    · rw [hi, h, Bool.false_and]
    · rw [decide_eq_false hi, Bool.and_false]

theorem byte_more (hw : 7 < w) (v : BitVec w) :
    ((v ||| 128#w).setWidth 8).setWidth w &&& 128#w ≠ 0#w ∧
      ((v ||| 128#w).setWidth 8).setWidth w &&& 127#w = v &&& 127#w := by
  constructor
  · rw [Ne, and_moreMask_eq_zero_iff hw]
    simp [getLsbD_moreMask hw, hw]
  · apply BitVec.eq_of_getLsbD_eq
    intro i hi
    simp only [BitVec.getLsbD_and, getLsbD_payloadMask hw, BitVec.getLsbD_setWidth,
      BitVec.getLsbD_or, getLsbD_moreMask hw]
    grind

theorem byte_last (hw : 7 < w) {v : BitVec w} (hv : v.toNat < 128) :
    (v.setWidth 8).setWidth w &&& 128#w = 0#w ∧ (v.setWidth 8).setWidth w = v := by
  have hsame : (v.setWidth 8).setWidth w = v := by
    apply BitVec.eq_of_toNat_eq
    rw [BitVec.toNat_setWidth, BitVec.toNat_setWidth, Nat.mod_eq_of_lt (hv.trans (by decide)),
      Nat.mod_eq_of_lt v.isLt]
  rw [hsame, and_moreMask_eq_zero_iff hw]
  exact ⟨Nat.testBit_lt_two_pow hv, rfl⟩

theorem getVarintLoop_encodeVarintLoop (hw : 7 < w) {fuel n : ℕ} {v : BitVec w} (shift : ℕ)
    (acc : BitVec w) (rest : List Byte) (hv : v.toNat < 2 ^ (7 * (fuel + 1))) (hn : fuel < n) :
    getVarintLoop n shift acc (encodeVarintLoop fuel v ++ rest) =
      some (acc ||| v <<< shift, rest) := by
  induction fuel generalizing n shift v acc with
  | zero =>
    obtain ⟨n, rfl⟩ : ∃ m, n = m + 1 := Nat.exists_eq_succ_of_ne_zero (by omega)
    obtain ⟨hlast, hsame⟩ := byte_last hw hv
    simp only [encodeVarintLoop, cons_append, nil_append, getVarintLoop, hlast]
    rw [if_neg (not_not_intro rfl), hsame]
  | succ fuel ih =>
    obtain ⟨n, rfl⟩ : ∃ m, n = m + 1 := Nat.exists_eq_succ_of_ne_zero (by omega)
    rw [encodeVarintLoop]
    split
    · obtain ⟨hmore, hpay⟩ := byte_more hw v
      have hrest : (v >>> 7).toNat < 2 ^ (7 * (fuel + 1)) := by
        rw [BitVec.toNat_ushiftRight, Nat.shiftRight_eq_div_pow]
        apply Nat.div_lt_of_lt_mul
        rwa [← pow_add, show 7 + 7 * (fuel + 1) = 7 * (fuel + 1 + 1) by ring]
      simp only [cons_append, getVarintLoop]
      rw [if_pos hmore, hpay, ih _ _ hrest (by omega), BitVec.or_assoc, Endian.lowSeven_or_rest hw]
    · rename_i hsmall
      obtain ⟨hlast, hsame⟩ := byte_last hw (Nat.lt_of_not_le hsmall)
      simp only [cons_append, nil_append, getVarintLoop, hlast]
      rw [if_neg (not_not_intro rfl), hsame]

theorem getVarint64_encodeVarint64 (v : Word) (rest : List Byte) :
    getVarint64 (encodeVarint64 v ++ rest) = some (v, rest) := by
  have h := getVarintLoop_encodeVarintLoop (by decide : 7 < 64) 0 0#64 rest
    (v.isLt.trans (by decide) : v.toNat < 2 ^ (7 * (9 + 1))) (by decide : 9 < 10)
  rwa [BitVec.zero_or, BitVec.shiftLeft_zero] at h

theorem encodeVarint32_eq_loop : encodeVarint32 v = encodeVarintLoop 4 v := by
  have hshift : ∀ k, (v >>> k).toNat = v.toNat / 2 ^ k := fun k => by
    rw [BitVec.toNat_ushiftRight, Nat.shiftRight_eq_div_pow]
  simp only [encodeVarint32, encodeVarintLoop, ← BitVec.shiftRight_add, hshift]
  by_cases h₁ : v.toNat < 2 ^ 7
  · rw [if_pos h₁, if_neg (show ¬ 128 ≤ v.toNat by omega)]
  rw [if_neg h₁, if_pos (show 128 ≤ v.toNat by omega)]
  by_cases h₂ : v.toNat < 2 ^ 14
  · rw [if_pos h₂, if_neg (show ¬ 128 ≤ v.toNat / 2 ^ 7 by omega)]
  rw [if_neg h₂, if_pos (show 128 ≤ v.toNat / 2 ^ 7 by omega)]
  by_cases h₃ : v.toNat < 2 ^ 21
  · rw [if_pos h₃, if_neg (show ¬ 128 ≤ v.toNat / 2 ^ 14 by omega)]
  rw [if_neg h₃, if_pos (show 128 ≤ v.toNat / 2 ^ 14 by omega)]
  by_cases h₄ : v.toNat < 2 ^ 28
  · rw [if_pos h₄, if_neg (show ¬ 128 ≤ v.toNat / 2 ^ 21 by omega)]
  rw [if_neg h₄, if_pos (show 128 ≤ v.toNat / 2 ^ 21 by omega)]

theorem length_encodeVarint32_pos : 0 < (encodeVarint32 v).length := by
  unfold encodeVarint32
  split_ifs <;> simp

theorem length_encodeVarint32_le : (encodeVarint32 v).length ≤ 5 := by
  unfold encodeVarint32
  split_ifs <;> simp

theorem getVarint32_encodeVarint32 (rest : List Byte) :
    getVarint32 (encodeVarint32 v ++ rest) = some (v, rest) := by
  have hloop : getVarint32PtrFallback (encodeVarint32 v ++ rest) = some (v, rest) := by
    rw [encodeVarint32_eq_loop]
    have h := getVarintLoop_encodeVarintLoop (by decide : 7 < 32) 0 0#32 rest
      (v.isLt.trans (by decide) : v.toNat < 2 ^ (7 * (4 + 1))) (by decide : 4 < 5)
    rwa [BitVec.zero_or, BitVec.shiftLeft_zero] at h
  unfold getVarint32
  split
  · rename_i b p heq
    split
    · rename_i hzero
      -- the short cut agrees with the first turn of the loop
      rw [heq, getVarint32PtrFallback, getVarintLoop] at hloop
      simpa [hzero] using hloop
    · exact hloop
  · exact hloop

end Varint

theorem length_encodeVarintLoop {w : ℕ} (fuel : ℕ) (v : BitVec w) :
    0 < (encodeVarintLoop fuel v).length ∧ (encodeVarintLoop fuel v).length ≤ fuel + 1 := by
  induction fuel generalizing v with
  | zero => exact ⟨Nat.zero_lt_one, le_rfl⟩
  | succ fuel ih =>
    rw [encodeVarintLoop]
    split
    · exact ⟨Nat.succ_pos _, Nat.succ_le_succ (ih _).2⟩
    · exact ⟨Nat.zero_lt_one, Nat.succ_le_succ (Nat.zero_le _)⟩

theorem length_flatMap_encodeVarint64 (vs : List Word) :
    vs.length ≤ (vs.flatMap encodeVarint64).length ∧
      (vs.flatMap encodeVarint64).length ≤ 10 * vs.length := by
  induction vs with
  | nil => exact ⟨le_rfl, le_rfl⟩
  | cons v vs ih =>
    obtain ⟨hpos, hle⟩ := length_encodeVarintLoop 9 v
    rw [flatMap_cons, length_append, length_cons, encodeVarint64]
    omega

def readHeader (file : List Byte) : Option (Word × List Byte) := do
  let (v, rest) ← getVarint64 (file.take 10)
  return (v, rest ++ file.drop 10)

theorem readHeader_encodeVarint64 (v : Word) (rest : List Byte) :
    readHeader (encodeVarint64 v ++ rest) = some (v, rest) := by
  have hlen : (encodeVarint64 v).length ≤ 10 := (length_encodeVarintLoop 9 v).2
  rw [readHeader, take_append, take_of_length_le hlen, getVarint64_encodeVarint64,
    drop_append, drop_of_length_le hlen]
  simp

def forVarints {σ : Type} (store : σ → Word → Option σ) : ℕ → σ → List Byte → Option σ
  | _, s, [] => some s
  | 0, _, _ :: _ => none
  | fuel + 1, s, b :: record => do
    let (v, record) ← getVarint64 (b :: record)
    let s ← store s v
    forVarints store fuel s record

theorem forVarints_flatMap {σ : Type} (store : σ → Word → Option σ) {fuel : ℕ} (s : σ)
    {vs : List Word} (hfuel : vs.length ≤ fuel) :
    forVarints store fuel s (vs.flatMap encodeVarint64) = vs.foldlM store s := by
  induction vs generalizing fuel s with
  | nil =>
    rw [flatMap_nil, forVarints]
    exact rfl
  | cons v vs ih =>
    obtain ⟨fuel, rfl⟩ := Nat.exists_eq_succ_of_ne_zero (Nat.ne_zero_of_lt hfuel)
    have hpos : 0 < (encodeVarint64 v).length := (length_encodeVarintLoop 9 v).1
    have hget := getVarint64_encodeVarint64 v (vs.flatMap encodeVarint64)
    rw [flatMap_cons]
    generalize hrecord : encodeVarint64 v ++ vs.flatMap encodeVarint64 = record at hget ⊢
    cases record with
    | nil =>
      rw [(append_eq_nil_iff.1 hrecord).1] at hpos
      exact absurd hpos (lt_irrefl 0)
    | cons b record =>
      rw [forVarints, hget, foldlM_cons]
      simp only [Option.bind_eq_bind, Option.bind_some]
      congr 1
      funext s'
      exact ih s' (Nat.le_of_succ_le_succ hfuel)

end Coding

end PromTCS
