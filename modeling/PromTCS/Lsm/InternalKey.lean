import PromTCS.Base.Coding
import PromTCS.Lib.Digits
import PromTCS.Lib.Merge

/-!
# Keys of the log-structured store

A chunk array is stored under the user key `EnCodeKey(sgid, mid, t)`: the source
big-endian, the metric little-endian, the time big-endian, 18 bytes. User keys are
compared byte by byte, and internal keys with the same user key by descending sequence
number, so that the newest comes first. All the entries of one series are next to each
other in this order, since they share their first ten bytes.
-/

namespace PromTCS

open List Digits

open Coding

structure TreeKey where
  sgid : Word
  mid : BitVec 16
  t : Word
deriving DecidableEq, Repr

namespace TreeKey

variable (k : TreeKey)

def seriesBytes : List Byte :=
  putFixed64BE k.sgid ++ putFixed16 k.mid

def enCodeKey : List Byte :=
  k.seriesBytes ++ putFixed64BE k.t

def deCodeKey (s : List Byte) : Option TreeKey := do
  let sgid ← decodeFixed64BE s
  let mid ← decodeFixed16 (s.drop 8)
  let t ← decodeFixed64BE (s.drop 10)
  return ⟨sgid, mid, t⟩

/-- The bytes as `memcmp` compares them. -/
def rank : List ℕ :=
  k.enCodeKey.map BitVec.toNat

def SameSeries (k l : TreeKey) : Prop :=
  k.sgid = l.sgid ∧ k.mid = l.mid

instance (k l : TreeKey) : Decidable (SameSeries k l) :=
  inferInstanceAs (Decidable (_ ∧ _))

@[simp] theorem length_seriesBytes : k.seriesBytes.length = 10 := by
  rw [seriesBytes, length_append, length_putFixed64BE, length_putFixed16]

@[simp] theorem deCodeKey_enCodeKey : deCodeKey k.enCodeKey = some k := by
  have hsgid : decodeFixed64BE k.enCodeKey = some k.sgid := by
    rw [enCodeKey, seriesBytes, append_assoc, decodeFixed64BE_putFixed64BE]
  have hmid : decodeFixed16 (k.enCodeKey.drop 8) = some k.mid := by
    rw [enCodeKey, seriesBytes, append_assoc, drop_left' (length_putFixed64BE _),
      decodeFixed16_putFixed16]
  have ht : decodeFixed64BE (k.enCodeKey.drop 10) = some k.t := by
    rw [enCodeKey, drop_left' k.length_seriesBytes, ← append_nil (putFixed64BE k.t),
      decodeFixed64BE_putFixed64BE]
  simp [deCodeKey, hsgid, hmid, ht]

theorem enCodeKey_injective : Function.Injective enCodeKey := fun k l h =>
  Option.some.inj (by rw [← deCodeKey_enCodeKey k, h, deCodeKey_enCodeKey])

theorem rank_injective : Function.Injective rank := fun _ _ h =>
  enCodeKey_injective (map_injective_iff.2 (fun _ _ => BitVec.eq_of_toNat_eq) h)

variable {k l : TreeKey}

theorem sameSeries_of_seriesBytes (h : k.seriesBytes = l.seriesBytes) : SameSeries k l := by
  obtain ⟨hsgid, hmid⟩ := append_inj h (by rw [length_putFixed64BE, length_putFixed64BE])
  have hsgid' := congrArg (fun b => decodeFixed64BE (b ++ [])) hsgid
  have hmid' := congrArg (fun b => decodeFixed16 (b ++ [])) hmid
  simp only [decodeFixed64BE_putFixed64BE, decodeFixed16_putFixed16] at hsgid' hmid'
  exact ⟨Option.some.inj hsgid', Option.some.inj hmid'⟩

theorem rank_eq (k : TreeKey) : k.rank =
    k.seriesBytes.map BitVec.toNat ++ (putFixed64BE k.t).map BitVec.toNat :=
  map_append

theorem seriesBytes_le (h : k.rank ≤ l.rank) :
    k.seriesBytes.map BitVec.toNat ≤ l.seriesBytes.map BitVec.toNat := by
  rw [rank_eq, rank_eq] at h
  exact le_of_append_le (by rw [length_map, length_map, length_seriesBytes,
    length_seriesBytes]) h

theorem value_putFixed64BE (n : Word) :
    value 256 0 ((putFixed64BE n).map BitVec.toNat) = n.toNat := by
  have htop : n.toNat / 72057594037927936 % 256 = n.toNat / 72057594037927936 :=
    Nat.mod_eq_of_lt (Nat.div_lt_of_lt_mul n.isLt)
  simp only [putFixed64BE, map_cons, map_nil, value, foldl_cons,
    foldl_nil, BitVec.toNat_setWidth, BitVec.toNat_ushiftRight, Nat.shiftRight_eq_div_pow,
    Nat.reducePow, Nat.zero_mul, Nat.zero_add, htop]
  rw [div_mul_add_mod n.toNat 281474976710656 256,
    div_mul_add_mod n.toNat 1099511627776 256,
    div_mul_add_mod n.toNat 4294967296 256, div_mul_add_mod n.toNat 16777216 256,
    div_mul_add_mod n.toNat 65536 256, div_mul_add_mod n.toNat 256 256]
  exact Nat.div_add_mod' n.toNat 256

theorem sgid_le (h : k.rank ≤ l.rank) : k.sgid.toNat ≤ l.sgid.toNat := by
  have hbytes := seriesBytes_le h
  rw [seriesBytes, seriesBytes, map_append, map_append] at hbytes
  have hle := le_of_append_le (by rw [length_map, length_map,
    length_putFixed64BE, length_putFixed64BE]) hbytes
  rw [← value_putFixed64BE, ← value_putFixed64BE l.sgid]
  refine value_le_value (by rw [length_map, length_map,
    length_putFixed64BE, length_putFixed64BE]) ?_ 0 hle
  rw [forall_mem_map]
  exact fun b _ => b.isLt

theorem sameSeries_of_between {m : TreeKey} (hkl : k.rank ≤ l.rank) (hlm : l.rank ≤ m.rank)
    (h : SameSeries k m) : SameSeries k l := by
  have hkm : k.seriesBytes = m.seriesBytes := by
    rw [seriesBytes, seriesBytes, h.1, h.2]
  have heq := le_antisymm (seriesBytes_le hkl) (hkm ▸ seriesBytes_le hlm)
  exact sameSeries_of_seriesBytes
    (map_injective_iff.2 (fun _ _ => BitVec.eq_of_toNat_eq) heq)

theorem rank_lt_of_t_lt (h : SameSeries k l) (hlt : k.t.toNat < l.t.toNat) : k.rank < l.rank := by
  have hbytes : k.seriesBytes = l.seriesBytes := by
    rw [seriesBytes, seriesBytes, h.1, h.2]
  rw [rank_eq, rank_eq, hbytes]
  refine append_left_lt (lt_of_not_ge fun hle => hlt.not_ge ?_)
  rw [← value_putFixed64BE, ← value_putFixed64BE k.t]
  refine value_le_value (by rw [length_map, length_map,
    length_putFixed64BE, length_putFixed64BE]) ?_ 0 hle
  rw [forall_mem_map]
  exact fun b _ => b.isLt

theorem rank_lt_of_seriesBytes_lt
    (h : k.seriesBytes.map BitVec.toNat < l.seriesBytes.map BitVec.toNat) : k.rank < l.rank := by
  rw [rank_eq, rank_eq]
  exact append_lt_append _ _ (by rw [length_map, length_map, length_seriesBytes,
    length_seriesBytes]) h

end TreeKey

open TreeKey

/-- `DeCodeKey` gives back what `EnCodeKey` was given, byte order is the order of the times
within a series, and of two series one comes entirely before the other: the keys of a series
are a contiguous range. -/
theorem treeKey_encoding (s : Word) (m : BitVec 16) :
    (∀ t, deCodeKey (enCodeKey ⟨s, m, t⟩) = some ⟨s, m, t⟩) ∧
    (∀ t t', rank ⟨s, m, t⟩ < rank ⟨s, m, t'⟩ ↔ t.toNat < t'.toNat) ∧
    (∀ s' m', (s', m') ≠ (s, m) →
      (∀ t t', rank ⟨s, m, t⟩ < rank ⟨s', m', t'⟩) ∨
        ∀ t t', rank ⟨s', m', t'⟩ < rank ⟨s, m, t⟩) ∧
    ∀ (k : TreeKey) (t t' : Word), rank ⟨s, m, t⟩ ≤ k.rank →
      k.rank ≤ rank ⟨s, m, t'⟩ → (k.sgid, k.mid) = (s, m) := by
  refine ⟨fun t => deCodeKey_enCodeKey _, fun t t' => ⟨fun hlt => ?_, fun hlt => ?_⟩,
    fun s' m' hne => ?_, fun k t t' hle hle' => ?_⟩
  · by_contra hge
    rcases (Nat.not_lt.1 hge).lt_or_eq with hlt' | heq
    · have hrank := rank_lt_of_t_lt (k := ⟨s, m, t'⟩) (l := ⟨s, m, t⟩) ⟨rfl, rfl⟩ hlt'
      exact hlt.asymm hrank
    · rw [BitVec.eq_of_toNat_eq heq] at hlt
      exact hlt.false
  · exact rank_lt_of_t_lt ⟨rfl, rfl⟩ hlt
  · -- the first ten bytes of a key do not depend on its time
    have hbytes : (seriesBytes ⟨s, m, 0⟩).map BitVec.toNat ≠
        (seriesBytes ⟨s', m', 0⟩).map BitVec.toNat := by
      intro heq
      have hsame := sameSeries_of_seriesBytes
        (map_injective_iff.2 (fun _ _ => BitVec.eq_of_toNat_eq) heq)
      exact hne (Prod.ext hsame.1.symm hsame.2.symm)
    rcases lt_or_gt_of_ne hbytes with hlt | hgt
    · exact Or.inl fun t t' => rank_lt_of_seriesBytes_lt hlt
    · exact Or.inr fun t t' => rank_lt_of_seriesBytes_lt hgt
  · obtain ⟨hs, hm⟩ := sameSeries_of_between hle hle' ⟨rfl, rfl⟩
    exact Prod.ext hs.symm hm.symm

/-- A user key with a sequence number; every entry is of type `kTypeValue`. -/
structure InternalKey where
  user : TreeKey
  seq : ℕ
deriving DecidableEq, Repr

namespace InternalKey

def rank (k : InternalKey) : List ℕ ×ₗ ℕᵒᵈ :=
  toLex (k.user.rank, OrderDual.toDual k.seq)

theorem rank_injective : Function.Injective rank := fun k l h => by
  have hpair := toLex_inj.1 h
  obtain ⟨huser, hseq⟩ := Prod.mk.inj hpair
  cases k
  cases l
  simp only [InternalKey.mk.injEq]
  exact ⟨TreeKey.rank_injective huser, OrderDual.toDual_inj.1 hseq⟩

/-- The order of `InternalKeyComparator`. -/
instance : LinearOrder InternalKey :=
  LinearOrder.lift' rank rank_injective

theorem le_iff {k l : InternalKey} : k ≤ l ↔
    k.user.rank < l.user.rank ∨ k.user.rank = l.user.rank ∧ l.seq ≤ k.seq :=
  Prod.Lex.toLex_le_toLex

theorem user_le_of_le {k l : InternalKey} (h : k ≤ l) : k.user.rank ≤ l.user.rank := by
  rcases Prod.Lex.toLex_le_toLex.1 h with hlt | ⟨heq, -⟩
  · exact hlt.le
  · exact heq.le

end InternalKey

structure Entry where
  ikey : InternalKey
  value : List Byte
deriving DecidableEq, Repr

end PromTCS
