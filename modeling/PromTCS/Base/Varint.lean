import PromTCS.Chunk.BitReader

/-!
# Decoding varints from a buffer

The decoders of `base/Endian` that are told the size of the buffer. Their loop
tests the byte it has just used, so it ends one past the last byte of the value,
or at `size` when every byte asks for another one.
-/

namespace PromTCS

open List

namespace Endian

/-- The loop of `decode_unsigned_varint`: the value and the index `i` it ends with.
It goes on only below `size`, so the fuel given below is never used up. -/
def decodeUnsignedVarintLoop (data : List Byte) (size : ℕ) : ℕ → ℕ → Word → ℕ → Word × ℕ
  | 0, i, decodedValue, _ => (decodedValue, i)
  | fuel + 1, i, decodedValue, shiftAmount =>
    let current := data.getD i 0#8
    let decodedValue := decodedValue ||| (current &&& 0x7F#8).setWidth 64 <<< shiftAmount
    if i < size then
      if current &&& 0x80#8 ≠ 0#8 then
        decodeUnsignedVarintLoop data size fuel (i + 1) decodedValue (shiftAmount + 7)
      else (decodedValue, i + 1)
    else (decodedValue, i)

/-- `decode_unsigned_varint`: the value and `decoded_bytes`. -/
def decodeUnsignedVarint (data : List Byte) (size : ℕ) : Except TSDBException (Word × ℕ) :=
  let (decodedValue, i) := decodeUnsignedVarintLoop data size (size + 1) 0 0#64 0
  if i = size ∧ data.getD (i - 1) 0#8 &&& 0x80#8 ≠ 0#8 then
    throw ⟨"Early decoding EOF"⟩
  else return (decodedValue, i)

def decodeSignedVarint (data : List Byte) (size : ℕ) : Except TSDBException (Word × ℕ) := do
  let (unsignedValue, decodedBytes) ← decodeUnsignedVarint data size
  return (unzigzag unsignedValue, decodedBytes)

/-- `decode` returns what `encode` wrote and its length, whatever follows it and
for every size that covers it. -/
def Decodes (encode : Word → List Byte)
    (decode : List Byte → ℕ → Except TSDBException (Word × ℕ)) : Prop :=
  ∀ value rest size, (encode value).length ≤ size →
    decode (encode value ++ rest) size = .ok (value, (encode value).length)

/-- One value after the other, until all bytes are used. -/
def decodeAll (decode : List Byte → ℕ → Except TSDBException (Word × ℕ)) :
    ℕ → List Byte → Except TSDBException (List Word)
  | 0, _ => .ok []
  | fuel + 1, data =>
    if data = [] then .ok []
    else do
      let (value, decodedBytes) ← decode data data.length
      let values ← decodeAll decode fuel (data.drop decodedBytes)
      return value :: values

section Decodes

variable {encode : Word → List Byte} {decode : List Byte → ℕ → Except TSDBException (Word × ℕ)}

theorem Decodes.eq_of_isPrefix (h : Decodes encode decode) {v w : Word}
    (hvw : encode v <+: encode w) : v = w := by
  have hw := h w [] _ (Nat.le_refl _)
  rw [append_nil] at hw
  obtain ⟨rest, hrest⟩ := hvw
  rw [← hrest, h v rest _ (by simp)] at hw
  exact congrArg Prod.fst (Except.ok.inj hw)

theorem Decodes.decodeAll_flatMap (h : Decodes encode decode) (hne : ∀ v, encode v ≠ [])
    (values : List Word) (fuel : ℕ) (hfuel : (values.flatMap encode).length ≤ fuel) :
    decodeAll decode fuel (values.flatMap encode) = .ok values := by
  induction values generalizing fuel with
  | nil => cases fuel <;> rfl
  | cons v values ih =>
    have hpos := length_pos_iff.2 (hne v)
    rw [flatMap_cons, length_append] at hfuel
    obtain ⟨fuel, rfl⟩ : ∃ f, fuel = f + 1 := Nat.exists_eq_succ_of_ne_zero (by omega)
    rw [flatMap_cons, decodeAll, if_neg (by simp [hne v]), h v _ _ (by simp)]
    change (decodeAll decode fuel ((encode v ++ values.flatMap encode).drop _) >>= _) = _
    rw [drop_left, ih fuel (by omega)]
    rfl

end Decodes

theorem encodeUnsignedVarint_ne_nil (value : Word) : encodeUnsignedVarint value ≠ [] := by
  simp only [encodeUnsignedVarint, encodeUnsignedVarintLoop]
  split <;> exact cons_ne_nil _ _

theorem of_drop_eq_cons {data l : List Byte} {b : Byte} {i : ℕ} (h : data.drop i = b :: l) :
    data.getD i 0#8 = b ∧ data.drop (i + 1) = l := by
  have hget : data[i]? = some b := by
    rw [← head?_drop, h, head?_cons]
  exact ⟨by rw [getD_eq_getElem?_getD, hget]; rfl, by rw [← drop_drop, h, drop_one, tail_cons]⟩

-- The bytes of the value lie at `i`; the last of them is the only one without the top bit.
theorem decodeUnsignedVarintLoop_eq {n : ℕ} {value : Word} {data rest : List Byte} {size : ℕ}
    (hn : 0 < n) (hvalue : value.toNat < 2 ^ (7 * n)) :
    ∀ {fuel i : ℕ} (acc : Word) (shift : ℕ),
      data.drop i = encodeUnsignedVarintLoop n value ++ rest →
      i + (encodeUnsignedVarintLoop n value).length ≤ size →
      (encodeUnsignedVarintLoop n value).length ≤ fuel →
      decodeUnsignedVarintLoop data size fuel i acc shift =
          (acc ||| value <<< shift, i + (encodeUnsignedVarintLoop n value).length) ∧
        data.getD (i + (encodeUnsignedVarintLoop n value).length - 1) 0#8 &&& 0x80#8 = 0#8 := by
  fun_induction encodeUnsignedVarintLoop n value with
  | case1 value => omega
  | case2 n value nextByte value' hzero =>
    intro fuel i acc shift hdata hsize hfuel
    obtain ⟨⟨hlast, hpay⟩, -⟩ := payload_facts value
    rw [length_singleton] at hsize hfuel
    obtain ⟨fuel, rfl⟩ : ∃ f, fuel = f + 1 := Nat.exists_eq_succ_of_ne_zero (by omega)
    have hrest := lowSeven_or_rest (by decide) value shift
    rw [show value >>> 7 = 0#64 from hzero, BitVec.zero_shiftLeft, BitVec.or_zero] at hrest
    obtain ⟨hget, -⟩ := of_drop_eq_cons hdata
    refine ⟨?_, by rwa [length_singleton, Nat.add_sub_cancel, hget]⟩
    simp only [decodeUnsignedVarintLoop, hget, nextByte, hlast, hpay, hrest, ne_eq,
      not_true_eq_false, if_false, if_pos (show i < size by omega), length_singleton]
  | case3 n value nextByte value' hzero ih =>
    intro fuel i acc shift hdata hsize hfuel
    obtain ⟨-, hmore, hpay⟩ := payload_facts value
    rw [length_cons] at hsize hfuel
    obtain ⟨fuel, rfl⟩ : ∃ f, fuel = f + 1 := Nat.exists_eq_succ_of_ne_zero (by omega)
    obtain ⟨hpos, hlt⟩ := varint_rest_lt hvalue hzero
    obtain ⟨hget, hdrop⟩ := of_drop_eq_cons hdata
    have hloop := ih hpos hlt (acc ||| (value &&& 0x7F#64) <<< shift) (shift + 7) hdrop
      (by omega) (Nat.le_of_succ_le_succ hfuel)
    rw [BitVec.or_assoc, lowSeven_or_rest (by decide) value shift, Nat.add_right_comm,
      Nat.add_assoc i] at hloop
    rw [decodeUnsignedVarintLoop, length_cons]
    simp only [hget, nextByte, hpay, if_pos hmore, if_pos (show i < size by omega)]
    exact hloop

theorem decodes_unsignedVarint : Decodes encodeUnsignedVarint decodeUnsignedVarint := by
  intro value rest size hsize
  obtain ⟨hloop, hlast⟩ := decodeUnsignedVarintLoop_eq (by decide : 0 < 10)
    (value.isLt.trans (by decide)) 0#64 0 (drop_zero : drop 0 (encodeUnsignedVarint value ++ rest) = _)
    ((Nat.zero_add _).trans_le hsize) (Nat.le_succ_of_le hsize)
  rw [Nat.zero_add] at hloop hlast
  rw [BitVec.zero_or, BitVec.shiftLeft_zero] at hloop
  rw [decodeUnsignedVarint, hloop]
  exact if_neg fun h => h.2 hlast

theorem decodes_signedVarint : Decodes encodeSignedVarint decodeSignedVarint := by
  intro value rest size hsize
  rw [decodeSignedVarint, encodeSignedVarint, decodes_unsignedVarint (zigzag value) rest size hsize]
  change Except.ok (unzigzag (zigzag value), _) = _
  rw [unzigzag_zigzag]

end Endian

open Endian

/-- Both codecs give back every value, no encoding is a prefix of another one, and a
concatenation of encodings decodes to the values it was made of. -/
theorem varint_roundTrip :
    (Decodes encodeUnsignedVarint decodeUnsignedVarint ∧
      (∀ v w, encodeUnsignedVarint v <+: encodeUnsignedVarint w → v = w) ∧
      ∀ values : List Word, let data := values.flatMap encodeUnsignedVarint
        decodeAll decodeUnsignedVarint data.length data = .ok values) ∧
    (Decodes encodeSignedVarint decodeSignedVarint ∧
      (∀ v w, encodeSignedVarint v <+: encodeSignedVarint w → v = w) ∧
      ∀ values : List Word, let data := values.flatMap encodeSignedVarint
        decodeAll decodeSignedVarint data.length data = .ok values) := by
  refine ⟨⟨decodes_unsignedVarint, fun _ _ => decodes_unsignedVarint.eq_of_isPrefix,
    fun values => ?_⟩, decodes_signedVarint, fun _ _ => decodes_signedVarint.eq_of_isPrefix,
    fun values => ?_⟩
  · exact decodes_unsignedVarint.decodeAll_flatMap encodeUnsignedVarint_ne_nil _ _ (Nat.le_refl _)
  · exact decodes_signedVarint.decodeAll_flatMap (fun v => encodeUnsignedVarint_ne_nil (zigzag v))
      _ _ (Nat.le_refl _)

end PromTCS
