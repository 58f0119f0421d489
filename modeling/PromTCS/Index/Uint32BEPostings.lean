import Mathlib.Logic.Relation
import PromTCS.Base.Endian
import PromTCS.Index.PostingsCursor

/-!
# Posting lists in an index file

`Uint32BEPostings` reads ids of four bytes from a buffer. `index` is unsigned and starts at -4, so
the test for a fresh cursor in `seek` never succeeds, and `seek` compares the bound with a `cur`
that has not been set. Behind an id that is below the bound the search goes on one byte later, not
four, so what it reads from there on is made of the bytes of two ids.
-/

namespace PromTCS

open List

/-- The buffer goes on behind the `size` bytes of the list. -/
structure Uint32BEPostings where
  p : ℕ → Byte
  size : ℕ
  index : ℕ
  cur : ℕ

namespace Uint32BEPostings

/-- `get_uint32_big_endian(p + i)`. -/
def read (p : ℕ → Byte) (i : ℕ) : ℕ :=
  (((p i).toNat * 256 + (p (i + 1)).toNat) * 256 + (p (i + 2)).toNat) * 256 + (p (i + 3)).toNat

/-- A `uint32_t`. -/
def u32 (n : ℕ) : ℕ := n % 2 ^ 32

/-- The constructor; `cur` is not set. -/
def ofPtr (p : ℕ → Byte) (size cur : ℕ) : Uint32BEPostings := ⟨p, size, 2 ^ 32 - 4, cur⟩

variable (s : Uint32BEPostings)

def next : Bool × Uint32BEPostings :=
  if s.size < u32 (s.index + 8) ∨ s.size = 0 then (false, s)
  else
    let index := u32 (s.index + 4)
    (true, { s with index := index, cur := read s.p index })

/-- The loop of `lower_bound`; `count` gets smaller in every round. -/
def lowerBoundLoop (p : ℕ → Byte) (v : ℕ) : ℕ → ℕ → ℕ → ℕ
  | 0, i, _ => i
  | fuel + 1, i, count =>
    if 0 < count then
      let step := count / 2
      let it := u32 (i + step * 4)
      if read p it < v then lowerBoundLoop p v fuel (u32 (it + 1)) (count - (step + 1))
      else lowerBoundLoop p v fuel i step
    else i

def lowerBound (i v : ℕ) : ℕ :=
  let count := u32 (s.size + 2 ^ 32 - i) / 4
  lowerBoundLoop s.p v count i count

def seek (v : ℕ) : Bool × Uint32BEPostings :=
  if s.size = 0 then (false, s)
  else if v ≤ s.cur then (true, s)
  else
    let i := s.lowerBound (u32 (s.index + 4)) v
    (decide (i < s.size), { s with index := i, cur := read s.p i })

def at' : ℕ := s.cur

structure Holds (s : Uint32BEPostings) (l : List ℕ) : Prop where
  size_eq : s.size = 4 * l.length
  size_lt : s.size < 2 ^ 32
  read_eq : ∀ j, (hj : j < l.length) → read s.p (4 * j) = l[j]

def left (l : List ℕ) : List ℕ :=
  if s.index = 2 ^ 32 - 4 then l else l.drop ((s.index + 3) / 4)

/-- The cursor is at the id with the number `j`. -/
structure Here (s : Uint32BEPostings) (l : List ℕ) (j : ℕ) : Prop where
  holds : s.Holds l
  lt : j < l.length
  index_eq : s.index = 4 * j
  cur_eq : s.cur = l.getD j 0

/-- `seek(v)` has no id to pass but the one at the cursor. -/
inductive Ready (s : Uint32BEPostings) (l : List ℕ) (v : ℕ) : Prop
  | empty (h : l = [])
  | here (j : ℕ) (h : s.Here l j) (hv : v ≤ l.getD j 0 ∨ ∀ x ∈ l[j + 1]?, v ≤ x)
  | fresh (h : s.index = 2 ^ 32 - 4) (hcur : s.cur < v) (hv : ∀ x ∈ l.head?, v ≤ x)

/-- The states reached by calls of `next` and `seek`. -/
def Reaches : Uint32BEPostings → Uint32BEPostings → Prop :=
  Relation.ReflTransGen fun s s' => s' = s.next.2 ∨ ∃ v < 2 ^ 64, s' = (s.seek v).2

/-! ## The search -/

theorem read_lt (p : ℕ → Byte) (i : ℕ) : read p i < 2 ^ 32 := by
  have h₀ := (p i).isLt
  have h₁ := (p (i + 1)).isLt
  have h₂ := (p (i + 2)).isLt
  have h₃ := (p (i + 3)).isLt
  unfold read
  omega

theorem lowerBoundLoop_eq {p : ℕ → Byte} {v i count : ℕ} (fuel : ℕ)
    (hlt : i + 4 * count < 2 ^ 32 + 4)
    (h : ∀ k < count, v ≤ read p (i + k * 4)) : lowerBoundLoop p v fuel i count = i := by
  induction fuel generalizing count with
  | zero => rfl
  | succ fuel ih =>
    rw [lowerBoundLoop]
    split_ifs with hpos
    · have hhalf : count / 2 < count := Nat.div_lt_self hpos (by decide)
      have hu32 : u32 (i + count / 2 * 4) = i + count / 2 * 4 := Nat.mod_eq_of_lt (by omega)
      dsimp only
      rw [hu32, if_neg (Nat.not_lt.2 (h _ hhalf))]
      exact ih (by omega) fun k hk => h k (by omega)
    · rfl

section

variable {s : Uint32BEPostings} {l : List ℕ} {v : ℕ}
  {k j : ℕ}

theorem Holds.count_eq (h : s.Holds l) (hk : k ≤ l.length) :
    u32 (s.size + 2 ^ 32 - 4 * k) / 4 = l.length - k := by
  have hsize := h.size_eq
  have hlt := h.size_lt
  rw [u32, show s.size + 2 ^ 32 - 4 * k = 4 * (l.length - k) + 2 ^ 32 by omega,
    Nat.add_mod_right, Nat.mod_eq_of_lt (by omega), Nat.mul_div_cancel_left _ (by decide)]

theorem Holds.lowerBound_eq (h : s.Holds l) (hk : k ≤ l.length) (hv : ∀ x ∈ l.drop k, v ≤ x) :
    s.lowerBound (4 * k) v = 4 * k := by
  have hsize := h.size_eq
  have hlt := h.size_lt
  rw [lowerBound, h.count_eq hk]
  refine lowerBoundLoop_eq _ (by omega) fun m hm => ?_
  have hmem : l[k + m] ∈ l.drop k := by
    rw [← getElem_drop (h := by rw [length_drop]; exact hm)]
    exact getElem_mem _
  have hread := h.read_eq (k + m) (by omega)
  rw [show 4 * k + m * 4 = 4 * (k + m) by omega, hread]
  exact hv _ hmem

theorem Holds.seeks (h : s.Holds l) (hasc : l.Pairwise (· < ·)) (hk : k ≤ l.length)
    (hne : s.size ≠ 0) (hcur : s.cur < v) (hindex : u32 (s.index + 4) = 4 * k)
    (hv : ∀ x ∈ l.drop k, v ≤ x) (hbefore : ∀ x ∈ (l.drop j).take (k - j), x < v) (hjk : j ≤ k) :
    Cursor.Seeks at' (l.drop j) v (s.seek v) := by
  have hsize := h.size_eq
  have hseek : s.seek v = (decide (4 * k < s.size),
      { s with index := 4 * k, cur := read s.p (4 * k) }) := by
    simp only [seek, if_neg hne, if_neg (Nat.not_le.2 hcur), hindex, h.lowerBound_eq hk hv]
  have hdrop : (l.drop j).dropWhile (· < v) = l.drop k := by
    have happend : l.drop j = (l.drop j).take (k - j) ++ l.drop k := by
      rw [show l.drop k = (l.drop j).drop (k - j) by rw [drop_drop]; congr 1; omega,
        take_append_drop]
    rw [happend]
    exact dropWhile_append_eq hbefore hv
  refine Cursor.seeks_of_dropWhile (hasc.sublist (drop_sublist j l)) ?_ fun x l' hx => ?_
  · rw [hseek, hdrop]
    by_cases hlt : k < l.length
    · rw [drop_eq_getElem_cons hlt, decide_eq_true (by omega)]
      rfl
    · rw [drop_eq_nil_of_le (Nat.not_lt.1 hlt), decide_eq_false (by omega)]
      rfl
  · rw [hdrop] at hx
    have hlt : k < l.length := by
      by_contra hge
      rw [drop_eq_nil_of_le (Nat.not_lt.1 hge)] at hx
      cases hx
    rw [drop_eq_getElem_cons hlt] at hx
    rw [hseek]
    exact (h.read_eq k hlt).trans (List.cons.inj hx).1

theorem Here.left_eq (h : s.Here l j) : s.left l = l.drop j := by
  have hsize := h.holds.size_eq
  have hlt := h.holds.size_lt
  have hj := h.lt
  have hindex := h.index_eq
  rw [left, if_neg (by omega), show (s.index + 3) / 4 = j by omega]

theorem Holds.size_ne_zero (h : s.Holds l) (hne : l ≠ []) : s.size ≠ 0 := by
  have hpos := length_pos_of_ne_nil hne
  rw [h.size_eq]
  omega

theorem forall_mem_drop_of_head (hasc : l.Pairwise (· < ·)) (hv : ∀ x ∈ l[k]?, v ≤ x) :
    ∀ x ∈ l.drop k, v ≤ x := by
  intro x hx
  by_cases hk : k < l.length
  · have hasc' := hasc.sublist (drop_sublist k l)
    rw [drop_eq_getElem_cons hk] at hx hasc'
    have hle := hv l[k] (getElem?_eq_getElem hk)
    rcases mem_cons.1 hx with rfl | hx
    · exact hle
    · exact Nat.le_trans hle (Nat.le_of_lt ((pairwise_cons.1 hasc').1 x hx))
  · rw [drop_eq_nil_of_le (Nat.not_lt.1 hk)] at hx
    exact absurd hx not_mem_nil

theorem Holds.seeks_nil (h : s.Holds []) : Cursor.Seeks at' (s.left []) v (s.seek v) := by
  have hseek : s.seek v = (false, s) := if_pos h.size_eq
  have hleft : s.left [] = [] := by
    unfold left
    split_ifs <;> simp
  rw [hseek, hleft]
  exact Cursor.seeks_of_dropWhile .nil rfl fun _ _ hx => by cases hx

theorem Here.seeks_of_le (h : s.Here l j) (hasc : l.Pairwise (· < ·)) (hle : v ≤ s.cur) :
    Cursor.Seeks at' (l.drop j) v (s.seek v) := by
  have hne := h.holds.size_ne_zero (ne_nil_of_length_pos (Nat.zero_lt_of_lt h.lt))
  have hlt := h.lt
  have hcur : s.cur = l[j] := by rw [h.cur_eq, getD_eq_getElem _ _ hlt]
  have hdrop : (l.drop j).dropWhile (· < v) = l.drop j := by
    rw [drop_eq_getElem_cons h.lt]
    exact dropWhile_cons_of_neg (by simpa [hcur] using hle)
  rw [seek, if_neg hne, if_pos hle]
  refine Cursor.seeks_of_dropWhile (hasc.sublist (drop_sublist j l)) ?_ fun x l' hx => ?_
  · rw [hdrop, drop_eq_getElem_cons h.lt]
    rfl
  · rw [hdrop, drop_eq_getElem_cons h.lt] at hx
    exact hcur.trans (List.cons.inj hx).1

theorem Ready.seeks (hholds : s.Holds l) (hasc : l.Pairwise (· < ·)) (h : s.Ready l v) :
    Cursor.Seeks at' (s.left l) v (s.seek v) := by
  cases h with
  | empty hnil =>
    subst hnil
    exact hholds.seeks_nil
  | here j hhere hv =>
    have hne := hholds.size_ne_zero (ne_nil_of_length_pos (Nat.zero_lt_of_lt hhere.lt))
    rw [hhere.left_eq]
    by_cases hle : v ≤ s.cur
    · exact hhere.seeks_of_le hasc hle
    · have hsize := hholds.size_eq
      have hlt := hholds.size_lt
      have hj := hhere.lt
      have hv' := hv.resolve_left (hhere.cur_eq ▸ hle)
      refine hholds.seeks hasc hj hne (Nat.not_le.1 hle) ?_
        (forall_mem_drop_of_head hasc hv') ?_ (Nat.le_succ j)
      · rw [hhere.index_eq]
        exact Nat.mod_eq_of_lt (by omega)
      · rw [drop_eq_getElem_cons hj, show j.succ - j = 1 by omega, take_succ_cons,
          take_zero, forall_mem_singleton, ← getD_eq_getElem _ 0 hj,
          ← hhere.cur_eq]
        exact Nat.not_le.1 hle
  | fresh hindex hcur hv =>
    have hleft : s.left l = l.drop 0 := by rw [left, if_pos hindex, drop_zero]
    by_cases hnil : l = []
    · subst hnil
      exact hholds.seeks_nil
    · rw [hleft]
      refine hholds.seeks hasc (Nat.zero_le _) (hholds.size_ne_zero hnil) hcur ?_
        (forall_mem_drop_of_head hasc ?_) (fun x hx => absurd hx (by simp)) le_rfl
      · rw [hindex]
        rfl
      · rwa [← head?_eq_getElem?]

/-! ## Where it is wrong -/

theorem lowerBoundLoop_le {p : ℕ → Byte} (fuel : ℕ) {i count : ℕ} (hlt : i + 4 * count < 2 ^ 32) :
    lowerBoundLoop p v fuel i count ≤ i + 4 * count := by
  induction fuel generalizing i count with
  | zero => exact Nat.le_add_right _ _
  | succ fuel ih =>
    rw [lowerBoundLoop]
    split_ifs with hpos
    · have hhalf : count / 2 < count := Nat.div_lt_self hpos (by decide)
      have hit : u32 (i + count / 2 * 4) = i + count / 2 * 4 := Nat.mod_eq_of_lt (by omega)
      have hit' : u32 (i + count / 2 * 4 + 1) = i + count / 2 * 4 + 1 :=
        Nat.mod_eq_of_lt (by omega)
      dsimp only
      rw [hit, hit']
      split_ifs
      · refine Nat.le_trans (ih ?_) ?_ <;> omega
      · refine Nat.le_trans (ih ?_) ?_ <;> omega
    · exact Nat.le_add_right _ _

theorem Holds.next_fresh (h : s.Holds l) (hindex : s.index = 2 ^ 32 - 4) (hne : l ≠ []) :
    s.next.2.Here l 0 := by
  have hsize := h.size_eq
  have hpos := length_pos_of_ne_nil hne
  have hnext : s.next = (true, { s with index := 0, cur := read s.p 0 }) := by
    rw [next, hindex, if_neg (by rw [show u32 (2 ^ 32 - 4 + 8) = 4 from rfl]; omega)]
    rfl
  rw [hnext]
  refine ⟨⟨h.size_eq, h.size_lt, h.read_eq⟩, hpos, rfl, ?_⟩
  rw [getD_eq_getElem _ _ hpos]
  exact h.read_eq 0 hpos

theorem Here.seek_eq (h : s.Here l j) (hv : s.cur < v) :
    s.seek v = (decide (s.lowerBound (4 * (j + 1)) v < s.size),
      { s with
        index := s.lowerBound (4 * (j + 1)) v
        cur := read s.p (s.lowerBound (4 * (j + 1)) v) }) := by
  have hsize := h.holds.size_eq
  have hlt := h.holds.size_lt
  have hj := h.lt
  have hindex : u32 (s.index + 4) = 4 * (j + 1) := by
    rw [h.index_eq]
    exact Nat.mod_eq_of_lt (by omega)
  simp only [seek, if_neg (Nat.not_le.2 hv), hindex]
  rw [if_neg (by omega)]

theorem Here.seek_of_lt (h : s.Here l j) (hj : j + 1 < l.length) (hv : ∀ x ∈ l, x < v) :
    (s.seek v).1 = true := by
  have hsize := h.holds.size_eq
  have hlt := h.holds.size_lt
  have hcur : s.cur < v := by
    rw [h.cur_eq, getD_eq_getElem _ _ h.lt]
    exact hv _ (getElem_mem h.lt)
  rw [h.seek_eq hcur]
  refine decide_eq_true ?_
  rw [lowerBound, h.holds.count_eq (Nat.le_of_lt hj)]
  obtain ⟨n, hn⟩ : ∃ n, l.length - (j + 1) = n + 1 := ⟨l.length - (j + 1) - 1, by omega⟩
  have hprobe : j + 1 + (n + 1) / 2 < l.length := by omega
  have hread := h.holds.read_eq (j + 1 + (n + 1) / 2) hprobe
  rw [hn, lowerBoundLoop, if_pos (Nat.succ_pos n)]
  have hit : u32 (4 * (j + 1) + (n + 1) / 2 * 4) = 4 * (j + 1 + (n + 1) / 2) := by
    rw [show 4 * (j + 1) + (n + 1) / 2 * 4 = 4 * (j + 1 + (n + 1) / 2) by omega]
    exact Nat.mod_eq_of_lt (by omega)
  dsimp only
  rw [hit, hread, if_pos (hv _ (getElem_mem hprobe))]
  have hit' : u32 (4 * (j + 1 + (n + 1) / 2) + 1) = 4 * (j + 1 + (n + 1) / 2) + 1 :=
    Nat.mod_eq_of_lt (by omega)
  rw [hit']
  refine Nat.lt_of_le_of_lt (lowerBoundLoop_le n ?_) ?_ <;> omega

theorem Here.seek_of_last (h : s.Here l j) (hj : j + 1 = l.length) (hv : s.cur < v) :
    (s.seek v).2.index = s.size ∧ ((s.seek v).2.seek 0).1 = true := by
  have hsize := h.holds.size_eq
  have hlow : s.lowerBound (4 * (j + 1)) v = s.size := by
    rw [h.holds.lowerBound_eq (Nat.le_of_eq hj) (fun x hx => by simp [hj] at hx), hj, hsize]
  rw [h.seek_eq hv, hlow]
  refine ⟨rfl, ?_⟩
  rw [seek, if_neg (show s.size ≠ 0 by omega), if_pos (Nat.zero_le _)]

theorem Holds.exists_not_seeks (h : s.Holds l) (hindex : s.index = 2 ^ 32 - 4) (hne : l ≠ []) :
    ∃ s', s.Reaches s' ∧ ∃ v < 2 ^ 64, ¬ Cursor.Seeks at' (s'.left l) v (s'.seek v) := by
  have hhere := h.next_fresh hindex hne
  have hreach : s.Reaches s.next.2 := .single (Or.inl rfl)
  have hv : ∀ x ∈ l, x < 2 ^ 32 := by
    intro x hx
    obtain ⟨j, hj, rfl⟩ := mem_iff_getElem.1 hx
    exact h.read_eq j hj ▸ read_lt s.p (4 * j)
  by_cases hone : 1 < l.length
  · refine ⟨_, hreach, 2 ^ 32, by decide, fun hseeks => ?_⟩
    obtain ⟨x, hx, hle⟩ := hseeks.found_iff.1 (hhere.seek_of_lt hone hv)
    rw [hhere.left_eq, drop_zero] at hx
    exact absurd (hv x hx) (Nat.not_lt.2 hle)
  · have hlen : 0 + 1 = l.length := by
      have := hhere.lt
      omega
    have hcur : s.next.2.cur < 2 ^ 32 := by
      rw [hhere.cur_eq, getD_eq_getElem _ _ hhere.lt]
      exact hv _ (getElem_mem _)
    obtain ⟨hend, htrue⟩ := hhere.seek_of_last hlen hcur
    refine ⟨_, hreach.tail (Or.inr ⟨2 ^ 32, by decide, rfl⟩), 0, by decide, fun hseeks => ?_⟩
    obtain ⟨x, hx, -⟩ := hseeks.found_iff.1 htrue
    have hsize := hhere.holds.size_eq
    rw [left, hend, if_neg (by omega), drop_eq_nil_of_le (by omega)] at hx
    exact absurd hx not_mem_nil

theorem Holds.reaches_nil (h : s.Holds []) {s' : Uint32BEPostings} (hreach : s.Reaches s') :
    s' = s := by
  have hsize : s.size = 0 := h.size_eq
  induction hreach with
  | refl => rfl
  | tail _ hstep ih =>
    subst ih
    rcases hstep with rfl | ⟨v, -, rfl⟩
    · rw [next, if_pos (Or.inr hsize)]
    · rw [seek, if_pos hsize]

end

end Uint32BEPostings

open Uint32BEPostings

/-- In a `PrefixPostingsV2` `seek` meets its contract exactly from an id on, and before the first
call for a bound that is not above the first id. In a `Uint32BEPostings` it meets it where there
is no id to pass; of a list that is not empty some cursor that can be reached does not. -/
theorem postingsSeek_meets (p : PrefixPostingsV2) (hp : p.Valid) (s : Uint32BEPostings)
    (l : List ℕ) (hs : s.Holds l) (hl : l.Pairwise (· < ·)) (v : ℕ) :
    (p.SeekMeets v ↔ p.onId = true ∨ (p.cursor = none ∧ ∀ x ∈ p.ids.head?, v ≤ x)) ∧
      (s.Ready l v → Cursor.Seeks Uint32BEPostings.at' (s.left l) v (s.seek v)) ∧
      ∀ (q : ℕ → Byte) (size cur : ℕ), (ofPtr q size cur).Holds l →
        ((∀ s', (ofPtr q size cur).Reaches s' → ∀ v < 2 ^ 64,
          Cursor.Seeks Uint32BEPostings.at' (s'.left l) v (s'.seek v)) ↔ l = []) := by
  refine ⟨hp.seekMeets_iff v, fun hready => hready.seeks hs hl,
    fun q size cur h => ⟨fun hall => ?_, ?_⟩⟩
  · by_contra hne
    obtain ⟨s, hreach, v, hv, hnot⟩ := h.exists_not_seeks rfl hne
    exact hnot (hall s hreach v hv)
  · rintro rfl s hreach v -
    rw [h.reaches_nil hreach]
    exact h.seeks_nil

def sampleBuffer (i : ℕ) : Byte :=
  [0#8, 0#8, 0#8, 1#8, 0#8, 0#8, 0#8, 2#8, 0#8, 0#8, 1#8, 44#8].getD i 0

theorem holds_sampleBuffer (index cur : ℕ) :
    Uint32BEPostings.Holds ⟨sampleBuffer, 12, index, cur⟩ [1, 2, 300] := by
  have hread : ∀ j, (hj : j < 3) → read sampleBuffer (4 * j) =
      [1, 2, 300][j] := by
    decide +kernel
  exact ⟨rfl, show 12 < 2 ^ 32 by decide, hread⟩

theorem postingsSeek_meets_samples :
    (PrefixPostingsV2.ofIds [1, 3]).SeekMeets 1 ∧
      Cursor.Seeks Uint32BEPostings.at' [1, 2, 300] 2
        (seek ⟨sampleBuffer, 12, 0, 1⟩ 2) ∧
      ¬ ∀ s, (ofPtr sampleBuffer 12 0).Reaches s → ∀ v < 2 ^ 64,
        Cursor.Seeks Uint32BEPostings.at' (s.left [1, 2, 300]) v (s.seek v) := by
  have hmeets := postingsSeek_meets (PrefixPostingsV2.ofIds [1, 3])
    (PrefixPostingsV2.fresh_ofIds (by decide)).valid ⟨sampleBuffer, 12, 0, 1⟩ [1, 2, 300]
    (holds_sampleBuffer 0 1) (by decide)
  refine ⟨(hmeets 1).1.2 (Or.inr ⟨rfl, by decide⟩), ?_, fun hall => ?_⟩
  · exact (hmeets 2).2.1
      (.here 0 ⟨holds_sampleBuffer 0 1, by decide, rfl, rfl⟩ (Or.inr (by decide)))
  · exact absurd (((hmeets 0).2.2 sampleBuffer 12 0 (holds_sampleBuffer _ 0)).1 hall) (by decide)

/-- The bound 3 leads to the first id 1, and behind the id 1 to the bytes of 512. -/
theorem postingsSeek_misses :
    ¬ (PrefixPostingsV2.ofIds [1, 3]).SeekMeets 3 ∧
      ¬ Cursor.Seeks Uint32BEPostings.at' [1, 2, 300] 3
        ((ofPtr sampleBuffer 12 0).next.2.seek 3) := by
  constructor
  · rintro ⟨r, hr, hseeks⟩
    obtain rfl : (true, { PrefixPostingsV2.ofIds [1, 3] with cursor := some (0, 0) }) = r :=
      Option.some.inj hr
    exact absurd (hseeks.least rfl).2.1 (by decide)
  · intro hseeks
    exact absurd (hseeks.least (by decide +kernel)).1 (by decide +kernel)

end PromTCS
