import Mathlib.Data.List.Induction
import Mathlib.Data.List.OfFn
import Mathlib.Data.Nat.ModEq
import Mathlib.Tactic.Ring

/-!
# Bit strings

A word is read as the list of its bits, most significant bit first, and a list
of bytes as the concatenation of the bits of its bytes. `value` goes back: it
is the natural number a bit list denotes. Shifts of a word are drops and takes
of its bit list, so that code that assembles words by shifting and masking can
be followed on lists.
-/

namespace BitString

open List

def ofBitVec {w : ℕ} (x : BitVec w) : List Bool :=
  List.ofFn fun i : Fin w => x.getMsbD i

variable {w k n : ℕ} {x : BitVec 64}

@[simp] theorem length_ofBitVec (x : BitVec w) : (ofBitVec x).length = w := by
  simp [ofBitVec]

@[simp] theorem getElem_ofBitVec (x : BitVec w) (i : ℕ) (h : i < (ofBitVec x).length) :
    (ofBitVec x)[i] = x.getMsbD i := by
  simp [ofBitVec]

theorem ofBitVec_zero (w : ℕ) :
    ofBitVec (0#w) = List.replicate w false := by
  apply ext_getElem <;> simp

theorem ofBitVec_shiftLeft (x : BitVec w) (hk : k ≤ w) :
    ofBitVec (x <<< k) = (ofBitVec x).drop k ++ List.replicate k false := by
  apply ext_getElem
  · simp [hk]
  · intro i h₁ h₂
    rw [getElem_append]
    split
    · simp [Nat.add_comm]
    · rename_i h
      simp only [length_drop, length_ofBitVec] at h
      simp [show w ≤ i + k by omega]

theorem ofBitVec_ushiftRight (x : BitVec w) (hk : k ≤ w) :
    ofBitVec (x >>> k) =
      List.replicate k false ++ (ofBitVec x).take (w - k) := by
  apply ext_getElem
  · simp [hk]
  · intro i h₁ h₂
    have hi : i < w := by simpa using h₁
    rw [getElem_append]
    split
    · rename_i h
      simp only [length_replicate] at h
      simp [BitVec.getMsbD_ushiftRight, h]
    · rename_i h
      simp only [length_replicate] at h
      simp [BitVec.getMsbD_ushiftRight, h, hi]

theorem ofBitVec_setWidth (x : BitVec w) (hk : k ≤ w) :
    ofBitVec (x.setWidth k) = (ofBitVec x).drop (w - k) := by
  apply ext_getElem
  · rw [length_drop, length_ofBitVec, length_ofBitVec]
    omega
  · intro i h₁ h₂
    simp only [getElem_ofBitVec, getElem_drop, BitVec.getMsbD_setWidth]
    rw [decide_eq_true (by omega), Bool.true_and]
    congr 1
    omega

theorem ofBitVec_or (x y : BitVec w) :
    ofBitVec (x ||| y) = List.zipWith (· || ·) (ofBitVec x) (ofBitVec y) := by
  apply ext_getElem <;> simp

theorem ofBitVec_or_of_append {x y : BitVec w} {bs cs : List Bool}
    (hx : ofBitVec x = bs ++ List.replicate k false)
    (hy : ofBitVec y = List.replicate bs.length false ++ cs) (hk : cs.length = k) :
    ofBitVec (x ||| y) = bs ++ cs := by
  rw [ofBitVec_or, hx, hy, zipWith_append (by simp)]
  congr 1
  · apply ext_getElem <;> simp
  · apply ext_getElem <;> simp [hk]

def value (bs : List Bool) : ℕ :=
  bs.foldl (fun acc b => 2 * acc + b.toNat) 0

@[simp] theorem value_nil : value [] = 0 := rfl

theorem value_concat (bs : List Bool) (b : Bool) :
    value (bs ++ [b]) = 2 * value bs + b.toNat := by
  simp [value]

theorem value_append (bs cs : List Bool) :
    value (bs ++ cs) = value bs * 2 ^ cs.length + value cs := by
  induction cs using List.reverseRecOn with
  | nil => simp
  | append_singleton cs c ih =>
    rw [← append_assoc, value_concat, ih, value_concat,
      length_append, length_singleton]
    ring

theorem value_lt (bs : List Bool) : value bs < 2 ^ bs.length := by
  induction bs using List.reverseRecOn with
  | nil => simp
  | append_singleton bs b ih =>
    rw [value_concat, length_append, length_singleton, pow_succ]
    have hb : b.toNat ≤ 1 := b.toNat_le
    omega

theorem value_ofBitVec_take (x : BitVec w) (hn : n ≤ w) :
    value ((ofBitVec x).take n) = x.toNat / 2 ^ (w - n) := by
  induction n with
  | zero => simp [Nat.div_eq_of_lt x.isLt]
  | succ n ih =>
    have hlen : n < (ofBitVec x).length := by simp; omega
    rw [take_succ_eq_append_getElem hlen, value_concat, ih (by omega),
      getElem_ofBitVec, BitVec.getMsbD_eq_getLsbD]
    have hsub : w - n = (w - (n + 1)) + 1 := by omega
    have hbit : (x.getLsbD (w - 1 - n)).toNat = x.toNat / 2 ^ (w - (n + 1)) % 2 := by
      rw [show w - 1 - n = w - (n + 1) by omega, BitVec.getLsbD,
        Nat.toNat_testBit]
    rw [decide_eq_true (by omega), Bool.true_and, hbit, hsub, pow_succ,
      ← Nat.div_div_eq_div_mul]
    omega

@[simp] theorem value_ofBitVec (x : BitVec w) : value (ofBitVec x) = x.toNat := by
  have h := value_ofBitVec_take x le_rfl
  rwa [take_of_length_le (by simp), Nat.sub_self, pow_zero, Nat.div_one] at h

theorem value_ofBitVec_drop (x : BitVec w) (hn : n ≤ w) :
    value ((ofBitVec x).drop (w - n)) = x.toNat % 2 ^ n := by
  have hsplit : value ((ofBitVec x).take (w - n)) * 2 ^ n +
      value ((ofBitVec x).drop (w - n)) = x.toNat := by
    have happ := value_append ((ofBitVec x).take (w - n)) ((ofBitVec x).drop (w - n))
    rwa [take_append_drop, value_ofBitVec, length_drop, length_ofBitVec,
      Nat.sub_sub_self hn, eq_comm] at happ
  have hlt := value_lt ((ofBitVec x).drop (w - n))
  rw [length_drop, length_ofBitVec, Nat.sub_sub_self hn] at hlt
  rw [← hsplit, Nat.mul_add_mod_self_right, Nat.mod_eq_of_lt hlt]

theorem value_ofBitVec_slice (x : BitVec w) {h : ℕ} (hn : n ≤ h) (hh : h ≤ w) :
    value (((ofBitVec x).drop (w - h)).take n) = x.toNat / 2 ^ (h - n) % 2 ^ n := by
  have hshift := value_ofBitVec_drop (x >>> (h - n)) (hn.trans hh)
  rw [ofBitVec_ushiftRight x (by omega), drop_append, length_replicate,
    drop_eq_nil_of_le (by simp; omega), nil_append, drop_take,
    BitVec.toNat_ushiftRight, Nat.shiftRight_eq_div_pow] at hshift
  rw [← hshift]
  congr 2
  · omega
  · congr 1
    omega

theorem exists_ofBitVec (bs : List Bool) (h : bs.length = w) : ∃ x : BitVec w, ofBitVec x = bs := by
  refine ⟨(BitVec.ofBoolListBE bs).cast h, ?_⟩
  apply ext_getElem
  · simp [h]
  · intro i h₁ h₂
    simp [h₂]

/-- A word with the bits `bs` shifted in from the right. -/
def pushBits {w : ℕ} (x : BitVec w) (bs : List Bool) : BitVec w :=
  BitVec.ofNat w (x.toNat * 2 ^ bs.length + value bs)

theorem pushBits_append (x : BitVec w) (bs cs : List Bool) :
    pushBits x (bs ++ cs) = pushBits (pushBits x bs) cs := by
  apply BitVec.eq_of_toNat_eq
  simp only [pushBits, BitVec.toNat_ofNat, value_append, length_append, pow_add]
  have hmod : ((x.toNat * 2 ^ bs.length + value bs) % 2 ^ w * 2 ^ cs.length + value cs) ≡
      (x.toNat * 2 ^ bs.length + value bs) * 2 ^ cs.length + value cs [MOD 2 ^ w] :=
    ((Nat.mod_modEq _ _).mul_right _).add_right _
  rw [hmod]
  congr 1
  ring

theorem shiftLeft_or_eq_pushBits (x y : BitVec w) (bs : List Bool) (hle : bs.length ≤ w)
    (hy : y.toNat = value bs) : x <<< bs.length ||| y = pushBits x bs := by
  have hlt : y.toNat < 2 ^ bs.length := by
    rw [hy]
    exact value_lt bs
  have hpow : 2 ^ w = 2 ^ bs.length * 2 ^ (w - bs.length) := by
    rw [← pow_add, Nat.add_sub_cancel' hle]
  apply BitVec.eq_of_toNat_eq
  rw [BitVec.toNat_or, BitVec.toNat_shiftLeft, pushBits, BitVec.toNat_ofNat, ← hy,
    Nat.shiftLeft_eq, hpow, Nat.mul_comm x.toNat, Nat.mul_mod_mul_left,
    ← Nat.two_pow_add_eq_or_of_lt hlt, Nat.mod_mul (b := 2 ^ (w - bs.length)),
    Nat.mul_add_mod, Nat.mod_eq_of_lt hlt, Nat.mul_add_div (Nat.two_pow_pos _),
    Nat.div_eq_of_lt hlt, Nat.add_zero, Nat.add_comm]

variable (l : List (BitVec 8))

def ofBytes : List Bool :=
  l.flatMap ofBitVec

@[simp] theorem ofBytes_nil : ofBytes [] = [] := rfl

theorem ofBytes_cons (x : BitVec 8) (l : List (BitVec 8)) :
    ofBytes (x :: l) = ofBitVec x ++ ofBytes l := rfl

theorem ofBytes_append (l m : List (BitVec 8)) :
    ofBytes (l ++ m) = ofBytes l ++ ofBytes m :=
  flatMap_append

theorem ofBytes_concat (x : BitVec 8) :
    ofBytes (l ++ [x]) = ofBytes l ++ ofBitVec x := by
  simp [ofBytes]

@[simp] theorem length_ofBytes :
    (ofBytes l).length = 8 * l.length := by
  induction l with
  | nil => rfl
  | cons x l ih =>
    rw [ofBytes_cons, length_append, ih, length_ofBitVec, length_cons]
    omega

theorem ofBytes_replicate_zero (n : ℕ) :
    ofBytes (List.replicate n 0#8) = List.replicate (8 * n) false := by
  induction n with
  | zero => rfl
  | succ n ih =>
    rw [replicate_succ, ofBytes_cons, ih, ofBitVec_zero,
      replicate_append_replicate]
    congr 1
    omega

theorem getElem_ofBytes (k : ℕ) (h : k < (ofBytes l).length)
    (h' : k / 8 < l.length) : (ofBytes l)[k] = l[k / 8].getMsbD (k % 8) := by
  induction l generalizing k with
  | nil => simp at h'
  | cons x l ih =>
    simp only [ofBytes_cons]
    rw [getElem_append]
    split
    · rename_i hk
      rw [length_ofBitVec] at hk
      simp [Nat.div_eq_of_lt hk, Nat.mod_eq_of_lt hk]
    · rename_i hk
      rw [length_ofBitVec] at hk
      have hdiv : k / 8 = (k - 8) / 8 + 1 := by omega
      have hmod : k % 8 = (k - 8) % 8 := by omega
      simp only [length_ofBitVec, hdiv, hmod, getElem_cons_succ]
      exact ih (k - 8) _ (by rw [length_cons] at h'; omega)

theorem ofBytes_drop (n : ℕ) :
    ofBytes (l.drop n) = (ofBytes l).drop (8 * n) := by
  induction l generalizing n with
  | nil => simp
  | cons x l ih =>
    cases n with
    | zero => simp
    | succ n =>
      have hx : (ofBitVec x).length ≤ 8 * (n + 1) := by
        rw [length_ofBitVec]
        omega
      rw [drop_succ_cons, ih, ofBytes_cons, drop_append,
        drop_eq_nil_of_le hx, nil_append, length_ofBitVec]
      congr 1

theorem ofBytes_take (n : ℕ) :
    ofBytes (l.take n) = (ofBytes l).take (8 * n) := by
  rcases le_total n l.length with hn | hn
  · have hlen : 8 * n = (ofBytes (l.take n)).length := by simp [hn]
    conv_rhs => rw [← take_append_drop n l, ofBytes_append, hlen]
    rw [take_left]
  · have hlen : (ofBytes l).length ≤ 8 * n := by
      rw [length_ofBytes]
      omega
    rw [take_of_length_le hn, take_of_length_le hlen]

theorem ofBitVec_injective {x y : BitVec w} (h : ofBitVec x = ofBitVec y) : x = y := by
  apply BitVec.eq_of_toNat_eq
  rw [← value_ofBitVec x, h, value_ofBitVec]

theorem exists_of_ofBytes_eq_append {l pre : List (BitVec 8)} {bs : List Bool}
    (h : ofBytes l = ofBytes pre ++ bs) :
    ∃ data, l = pre ++ data ∧ ofBytes data = bs := by
  induction pre generalizing l with
  | nil => exact ⟨l, rfl, by simpa using h⟩
  | cons x pre ih =>
    cases l with
    | nil =>
      have hlen := congrArg List.length h
      simp only [length_ofBytes, length_nil, length_append,
        length_cons] at hlen
      omega
    | cons y l =>
      rw [ofBytes_cons, ofBytes_cons, append_assoc] at h
      obtain ⟨hxy, hrest⟩ := append_inj h (by simp)
      obtain ⟨data, hdata, hbs⟩ := ih hrest
      exact ⟨data, by rw [hdata, ofBitVec_injective hxy]; rfl, hbs⟩

theorem ofBytes_injective {l m : List (BitVec 8)} (h : ofBytes l = ofBytes m) : l = m := by
  have happ : ofBytes l = ofBytes m ++ [] := by rw [h, append_nil]
  obtain ⟨data, hl, hdata⟩ := exists_of_ofBytes_eq_append happ
  have hlen := congrArg List.length hdata
  rw [length_ofBytes, length_nil] at hlen
  have hnil : data = [] := length_eq_zero_iff.1 (by omega)
  rw [hl, hnil, append_nil]

theorem ofBitVec_one_shiftLeft (t : Fin 8) :
    ofBitVec (1#8 <<< (8 - (t.val + 1))) =
      List.replicate t false ++ true :: List.replicate (7 - t) false := by
  revert t
  decide

theorem clz_add_ctz_lt (hx : x ≠ 0#64) : x.clz.toNat + x.ctz.toNat < 64 := by
  have hle := BitVec.two_pow_ctz_le_toNat_of_ne_zero hx
  have hlt := BitVec.toNat_lt_two_pow_sub_clz (x := x)
  have hpow := (Nat.pow_lt_pow_iff_right (a := 2) (by omega)).1 (hle.trans_lt hlt)
  omega

theorem eq_zero_of_shiftLeft_eq (h : x <<< 32 = x) (hclz : 32 ≤ x.clz.toNat) : x = 0#64 := by
  have hlt : x.toNat < 2 ^ 32 :=
    BitVec.toNat_lt_two_pow_sub_clz.trans_le (Nat.pow_le_pow_right (by omega) (by omega))
  have hfits : x.toNat * 2 ^ 32 < 2 ^ 64 :=
    (Nat.mul_lt_mul_of_pos_right hlt (Nat.two_pow_pos 32)).trans_eq (pow_add 2 32 32).symm
  have hnat : x.toNat * 2 ^ 32 = x.toNat := by
    have h' := congrArg BitVec.toNat h
    rwa [BitVec.toNat_shiftLeft, Nat.shiftLeft_eq, Nat.mod_eq_of_lt hfits] at h'
  by_contra hne
  have hpos : x.toNat ≠ 0 := fun hzero => hne (BitVec.eq_of_toNat_eq hzero)
  exact absurd ((Nat.mul_eq_left hpos).1 hnat) (by decide)

theorem ushiftRight_shiftLeft {trail : ℕ} (htrail : trail ≤ x.ctz.toNat) :
    (x >>> trail) <<< trail = x := by
  apply BitVec.eq_of_getLsbD_eq
  intro i hi
  by_cases hit : i < trail
  · simp [hit, BitVec.getLsbD_false_of_lt_ctz (hit.trans_le htrail)]
  · simp [hit, hi, Nat.add_sub_cancel' (Nat.le_of_not_lt hit)]

theorem window_roundTrip {lead trail : ℕ} (hlead : lead ≤ x.clz.toNat)
    (htrail : trail ≤ x.ctz.toNat) (hle : lead + trail ≤ 64) :
    BitVec.ofNat 64 ((x >>> trail).toNat % 2 ^ (64 - lead - trail)) <<< trail = x := by
  have hlt : x.toNat < 2 ^ (64 - lead) :=
    BitVec.toNat_lt_two_pow_sub_clz.trans_le (Nat.pow_le_pow_right (by omega) (by omega))
  have hsmall : (x >>> trail).toNat < 2 ^ (64 - lead - trail) := by
    rw [BitVec.toNat_ushiftRight, Nat.shiftRight_eq_div_pow]
    apply Nat.div_lt_of_lt_mul
    rwa [← pow_add, show trail + (64 - lead - trail) = 64 - lead by omega]
  rw [Nat.mod_eq_of_lt hsmall, BitVec.ofNat_toNat, BitVec.setWidth_eq,
    ushiftRight_shiftLeft htrail]

theorem xor_xor_self (x y : BitVec w) : y ^^^ (x ^^^ y) = x := by
  rw [BitVec.xor_comm x y, ← BitVec.xor_assoc, BitVec.xor_self, BitVec.zero_xor]

end BitString
