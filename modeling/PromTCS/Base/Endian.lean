import Mathlib.Algebra.Group.Nat.Defs
import Mathlib.Data.List.Basic

/-!
# Integer encodings

The byte encodings of `base/Endian`: the two-byte big-endian counter a chunk
starts with, and the zig-zag varints in which the first timestamp and the first
delta of a chunk are written. A `double` only ever passes through its bit
pattern, so a value is a 64-bit word and `encode_double` is the identity.
-/

namespace PromTCS

open BitVec

/-- A `uint8_t`. -/
abbrev Byte := BitVec 8

/-- A 64-bit machine word: a timestamp, a delta or the bit pattern of a `double`. -/
abbrev Word := BitVec 64

/-- `leveldb::PARTITION_LENGTH`: two hours in milliseconds. -/
def partitionLength : Word := 7200000#64

namespace Endian

/-- `put_uint16_big_endian`: overwrite two bytes of `bytes` from offset `pos`. -/
def putUint16BigEndian (bytes : List Byte) (pos num : ℕ) : List Byte :=
  (bytes.set (pos + 1) (BitVec.ofNat 8 (num % 256))).set pos
    (BitVec.ofNat 8 (num / 256 % 256))

/-- `get_uint16_big_endian`: the two bytes of `bytes` at offset `pos`. -/
def getUint16BigEndian (bytes : List Byte) (pos : ℕ) : ℕ :=
  (bytes.getD pos 0).toNat * 256 + (bytes.getD (pos + 1) 0).toNat

def countBytes (num : ℕ) : List Byte :=
  [BitVec.ofNat 8 (num / 256 % 256), BitVec.ofNat 8 (num % 256)]

theorem putUint16BigEndian_append (header data : List Byte) (c d : Byte) (num : ℕ) :
    putUint16BigEndian (header ++ c :: d :: data) header.length num =
      header ++ countBytes num ++ data := by
  induction header with
  | nil => rfl
  | cons x header ih =>
    simp only [putUint16BigEndian, List.length_cons, List.cons_append,
      List.set_cons_succ] at ih ⊢
    rw [ih]

theorem getUint16BigEndian_append (header data : List Byte) {num : ℕ} (hnum : num < 65536) :
    getUint16BigEndian (header ++ countBytes num ++ data) header.length = num := by
  have hfst : (header ++ countBytes num ++ data)[header.length]? =
      some (BitVec.ofNat 8 (num / 256 % 256)) := by
    simp [countBytes]
  have hsnd : (header ++ countBytes num ++ data)[header.length + 1]? =
      some (BitVec.ofNat 8 (num % 256)) := by
    simp [countBytes]
  simp only [getUint16BigEndian, List.getD_eq_getElem?_getD, hfst, hsnd, Option.getD_some,
    toNat_ofNat]
  omega

/-- `encode_unsigned_varint`: groups of seven bits, least significant first,
with the top bit set on all but the last. The buffer has `MAX_VARINT_LEN_64 = 10`
bytes, which bounds the loop. -/
def encodeUnsignedVarintLoop : ℕ → Word → List Byte
  | 0, _ => []
  | fuel + 1, value =>
    let nextByte : Byte := (value &&& 0x7F#64).setWidth 8
    let value' := value >>> 7
    if value' = 0#64 then [nextByte]
    else (nextByte ||| 0x80#8) :: encodeUnsignedVarintLoop fuel value'

variable (value : Word)

def encodeUnsignedVarint : List Byte :=
  encodeUnsignedVarintLoop 10 value

theorem length_encodeUnsignedVarintLoop_le (fuel : ℕ) (value : Word) :
    (encodeUnsignedVarintLoop fuel value).length ≤ fuel := by
  fun_induction encodeUnsignedVarintLoop fuel value with
  | case1 => exact Nat.le_refl 0
  | case2 fuel => exact Nat.succ_le_succ (Nat.zero_le fuel)
  | case3 fuel value nextByte value' hne ih => exact Nat.succ_le_succ ih

theorem lowSeven_or_rest {w : ℕ} (hw : 7 < w) (v : BitVec w) (shift : ℕ) :
    (v &&& 127#w) <<< shift ||| (v >>> 7) <<< (shift + 7) = v <<< shift := by
  have hmask : (127#w).toNat = 2 ^ 7 - 1 :=
    Nat.mod_eq_of_lt (Nat.lt_of_lt_of_le (by decide : 127 < 2 ^ 7)
      (Nat.pow_le_pow_right (by decide) (Nat.le_of_lt hw)))
  have hlow : v.toNat % 2 ^ 7 < 2 ^ 7 := Nat.mod_lt _ (by decide)
  have hsplit : (v &&& 127#w) ||| (v >>> 7) <<< 7 = v := by
    apply eq_of_toNat_eq
    rw [toNat_or, toNat_and, hmask, Nat.and_two_pow_sub_one_eq_mod,
      toNat_shiftLeft, toNat_ushiftRight, Nat.shiftRight_eq_div_pow,
      Nat.shiftLeft_eq, Nat.or_comm, Nat.mod_eq_of_lt (by omega), Nat.mul_comm,
      ← Nat.two_pow_add_eq_or_of_lt hlow]
    omega
  rw [Nat.add_comm, shiftLeft_add, ← shiftLeft_or_distrib, hsplit]

theorem toNat_and_lowSeven :
    (value &&& 0x7F#64).toNat = value.toNat % 2 ^ 7 := by
  rw [toNat_and]
  exact Nat.and_two_pow_sub_one_eq_mod value.toNat 7

theorem varint_rest_lt {n : ℕ} {value : Word} (hvalue : value.toNat < 2 ^ (7 * (n + 1)))
    (hzero : value >>> 7 ≠ 0#64) : 0 < n ∧ (value >>> 7).toNat < 2 ^ (7 * n) := by
  have hlt : (value >>> 7).toNat < 2 ^ (7 * n) := by
    rw [toNat_ushiftRight, Nat.shiftRight_eq_div_pow]
    apply Nat.div_lt_of_lt_mul
    rwa [← Nat.pow_add, Nat.add_comm, ← Nat.mul_succ]
  refine ⟨Nat.pos_of_ne_zero ?_, hlt⟩
  rintro rfl
  exact hzero (eq_of_toNat_eq (by simpa using hlt))

theorem payload_facts :
    ((value &&& 0x7F#64).setWidth 8 &&& 0x80#8 = 0#8 ∧
      ((value &&& 0x7F#64).setWidth 8 &&& 0x7F#8).setWidth 64 = value &&& 0x7F#64) ∧
    (((value &&& 0x7F#64).setWidth 8 ||| 0x80#8) &&& 0x80#8 ≠ 0#8 ∧
      (((value &&& 0x7F#64).setWidth 8 ||| 0x80#8) &&& 0x7F#8).setWidth 64 =
        value &&& 0x7F#64) := by
  have hbyte : ∀ y : Byte,
      (y &&& 0x7F#8) &&& 0x80#8 = 0#8 ∧ (y &&& 0x7F#8) &&& 0x7F#8 = y &&& 0x7F#8 ∧
      (y &&& 0x7F#8 ||| 0x80#8) &&& 0x80#8 ≠ 0#8 ∧
      (y &&& 0x7F#8 ||| 0x80#8) &&& 0x7F#8 = y &&& 0x7F#8 := by
    decide
  have hwiden : (value.setWidth 8 &&& 0x7F#8).setWidth 64 = value &&& 0x7F#64 := by
    apply eq_of_toNat_eq
    rw [toNat_and_lowSeven, toNat_setWidth, toNat_and, toNat_setWidth]
    change (value.toNat % 2 ^ 8 &&& 2 ^ 7 - 1) % 2 ^ 64 = _
    rw [Nat.and_two_pow_sub_one_eq_mod]
    omega
  have hnarrow : (value &&& 0x7F#64).setWidth 8 = value.setWidth 8 &&& 0x7F#8 :=
    setWidth_and
  obtain ⟨h₁, h₂, h₃, h₄⟩ := hbyte (value.setWidth 8)
  rw [hnarrow, h₂, h₄, hwiden]
  exact ⟨⟨h₁, rfl⟩, h₃, rfl⟩

/-- The zig-zag map of `encode_signed_varint`. -/
def zigzag : Word :=
  if value.slt 0#64 then ~~~(value <<< 1) else value <<< 1

/-- The inverse map, as `read_signed_varint` computes it. -/
def unzigzag : Word :=
  if value &&& 1#64 = 1#64 then ~~~(value >>> 1) else value >>> 1

def encodeSignedVarint : List Byte :=
  encodeUnsignedVarint (zigzag value)

theorem and_one_eq_one_iff (x : Word) :
    x &&& 1#64 = 1#64 ↔ x.getLsbD 0 = true := by
  rw [and_one_eq_setWidth_ofBool_getLsbD]
  cases x.getLsbD 0 <;> decide

theorem unzigzag_zigzag : unzigzag (zigzag value) = value := by
  have hslt : value.slt 0#64 = value.msb := slt_zero_eq_msb
  unfold unzigzag zigzag
  rw [hslt]
  by_cases hmsb : value.msb = true
  · have hodd : (~~~(value <<< 1)).getLsbD 0 = true := by simp
    rw [if_pos hmsb, if_pos ((and_one_eq_one_iff _).2 hodd)]
    apply eq_of_getLsbD_eq
    intro i hi
    rw [msb_eq_getLsbD_last] at hmsb
    by_cases h : i = 63
    · simp_all
    · simp [hi, show 1 + i < 64 by omega]
  · have heven : ¬ (value <<< 1).getLsbD 0 = true := by simp
    rw [if_neg hmsb, if_neg (mt (and_one_eq_one_iff _).1 heven)]
    apply eq_of_getLsbD_eq
    intro i hi
    rw [msb_eq_getLsbD_last] at hmsb
    by_cases h : i = 63
    · simp_all
    · simp [hi, show 1 + i < 64 by omega]

end Endian

end PromTCS
