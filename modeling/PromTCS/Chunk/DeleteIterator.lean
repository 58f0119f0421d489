import PromTCS.Chunk.XORIterator
import PromTCS.Tombstone.Interval

/-!
# Samples without the deleted ones

`DeleteIterator` passes on the samples of another iterator that are in no deletion interval. Both
are in order, so that an interval is dropped for good once a sample is behind it. The time of a
sample is read into an `int`: it is compared modulo `2 ^ 32`.

The other iterator is given by the samples it has left. The value that is read with the time is
not used, and its conversion is left out.
-/

namespace PromTCS

open List

open Sample (time)

namespace DeleteIterator

/-- `p.first` -/
def first (x : Sample) : ℤ := (x.1.setWidth 32).toInt

def skip (t : ℤ) : List Interval → Bool × List Interval
  | [] => (true, [])
  | i :: itvls =>
    if i.inBounds t then (false, i :: itvls)
    else if i.maxTime < t then skip t itvls
    else (true, i :: itvls)

/-- `next()`: the sample, and what is left of the iterator and of the intervals. -/
def next : List Sample → List Interval → Option (Sample × List Sample × List Interval)
  | [], _ => none
  | x :: it, itvls =>
    if (skip (first x) itvls).1 then some (x, it, (skip (first x) itvls).2)
    else next it (skip (first x) itvls).2

/-- The samples that `next()` and `at()` yield. -/
def collect : ℕ → List Sample → List Interval → List Sample
  | 0, _, _ => []
  | fuel + 1, it, itvls =>
    match next it itvls with
    | none => []
    | some (x, it, itvls) => x :: collect fuel it itvls

def samples (it : List Sample) (itvls : List Interval) : List Sample :=
  collect (it.length + 1) it itvls

structure Disjoint (itvls : List Interval) : Prop where
  le : ∀ i ∈ itvls, i.minTime ≤ i.maxTime
  sorted : itvls.Pairwise fun i j => i.maxTime < j.minTime

def deleted (itvls : List Interval) (t : ℤ) : Bool := itvls.any fun i => i.inBounds t

variable {it : List Sample} {itvls : List Interval} {t : ℤ} {x : Sample} {fuel : ℕ}

theorem collect_cons (fuel : ℕ) (x : Sample) (it : List Sample) (itvls : List Interval) :
    collect (fuel + 1) (x :: it) itvls =
      if (skip (first x) itvls).1 then x :: collect fuel it (skip (first x) itvls).2
      else collect (fuel + 1) it (skip (first x) itvls).2 := by
  by_cases hskip : (skip (first x) itvls).1 = true
  · rw [collect, next, if_pos hskip, if_pos hskip]
  · rw [collect, next, if_neg hskip, if_neg hskip, collect]

theorem skip_snd (t : ℤ) (itvls : List Interval) : (skip t itvls).2 <:+ itvls := by
  induction itvls with
  | nil => exact suffix_rfl
  | cons i itvls ih =>
    rw [skip]
    split
    · exact suffix_rfl
    · split
      · exact ih.trans (suffix_cons i itvls)
      · exact suffix_rfl

theorem skip_fst_of_not (h : deleted itvls t = false) : (skip t itvls).1 = true := by
  induction itvls with
  | nil => rfl
  | cons i itvls ih =>
    rw [deleted, any_cons, Bool.or_eq_false_iff] at h
    obtain ⟨hi, hrest⟩ := h
    rw [skip, hi, if_neg Bool.false_ne_true]
    split
    · exact ih hrest
    · rfl

theorem Disjoint.tail {i : Interval} (h : Disjoint (i :: itvls)) : Disjoint itvls :=
  ⟨fun j hj => h.le j (mem_cons_of_mem _ hj), (pairwise_cons.1 h.sorted).2⟩

theorem Disjoint.skip (h : Disjoint itvls) (t : ℤ) :
    (skip t itvls).1 = !deleted itvls t ∧ Disjoint (skip t itvls).2 ∧
      ∀ t', t ≤ t' → deleted (skip t itvls).2 t' = deleted itvls t' := by
  induction itvls with
  | nil => exact ⟨rfl, h, fun _ _ => rfl⟩
  | cons i itvls ih =>
    rw [DeleteIterator.skip]
    split
    · rename_i hin
      exact ⟨by rw [deleted, any_cons, hin]; rfl, h, fun _ _ => rfl⟩
    rename_i hout
    rw [Bool.not_eq_true] at hout
    split
    · rename_i hlt
      obtain ⟨hfst, hdisjoint, hlater⟩ := ih h.tail
      refine ⟨by rw [hfst, deleted, deleted, any_cons, hout, Bool.false_or], hdisjoint,
        fun t' ht' => ?_⟩
      have hpast : i.inBounds t' = false := by
        rw [Bool.eq_false_iff, Ne, Interval.inBounds_iff]
        omega
      rw [hlater t' ht', deleted, deleted, any_cons, hpast, Bool.false_or]
    · rename_i hge
      refine ⟨?_, h, fun _ _ => rfl⟩
      rw [eq_comm, Bool.not_eq_true', deleted, any_cons, hout, Bool.false_or,
        any_eq_false]
      intro j hj
      have hgap := (pairwise_cons.1 h.sorted).1 j hj
      rw [Bool.eq_false_iff, Ne, Interval.inBounds_iff] at hout
      rw [Interval.inBounds_iff]
      omega

theorem collect_eq (hitvls : Disjoint itvls) (hit : it.Pairwise fun x y => first x ≤ first y)
    (hfuel : it.length < fuel) :
    collect fuel it itvls = it.filter fun x => !deleted itvls (first x) := by
  induction it generalizing itvls fuel with
  | nil =>
    cases fuel with
    | zero => rfl
    | succ fuel => rfl
  | cons x it ih =>
    obtain ⟨hle, hrest⟩ := pairwise_cons.1 hit
    obtain ⟨fuel, rfl⟩ := Nat.exists_eq_succ_of_ne_zero (Nat.ne_zero_of_lt hfuel)
    obtain ⟨hfst, hdisjoint, hlater⟩ := hitvls.skip (first x)
    have hsame : (it.filter fun y => !deleted (skip (first x) itvls).2 (first y)) =
        it.filter fun y => !deleted itvls (first y) :=
      filter_congr fun y hy => by rw [hlater _ (hle y hy)]
    rw [collect_cons, hfst, filter_cons]
    split
    · rw [ih hdisjoint hrest (Nat.lt_of_succ_lt_succ hfuel), hsame]
    · rw [ih hdisjoint hrest (Nat.lt_of_succ_lt hfuel), hsame]

theorem mem_collect (h : deleted itvls (first x) = false) (hx : x ∈ it)
    (hfuel : it.length < fuel) : x ∈ collect fuel it itvls := by
  induction it generalizing itvls fuel with
  | nil => exact absurd hx not_mem_nil
  | cons y it ih =>
    obtain ⟨fuel, rfl⟩ := Nat.exists_eq_succ_of_ne_zero (Nat.ne_zero_of_lt hfuel)
    have hleft : deleted (skip (first y) itvls).2 (first x) = false := by
      rw [deleted, any_eq_false] at h ⊢
      exact fun i hi => h i ((skip_snd _ _).subset hi)
    rw [collect_cons]
    rcases mem_cons.1 hx with rfl | hx
    · rw [skip_fst_of_not h, if_pos rfl]
      exact mem_cons_self
    · split
      · exact mem_cons_of_mem _ (ih hleft hx (Nat.lt_of_succ_lt_succ hfuel))
      · exact ih hleft hx (Nat.lt_of_succ_lt hfuel)

theorem first_eq_iff : first x = time x ↔ -2 ^ 31 ≤ time x ∧ time x < 2 ^ 31 := by
  have hlt := x.1.isLt
  rw [first, time, BitVec.toInt_setWidth, BitVec.toInt_eq_toNat_bmod]
  generalize x.1.toNat = n at hlt
  simp only [Int.bmod]
  split <;> split <;> omega

end DeleteIterator

open DeleteIterator in
/-- For given samples the iterator is right with all intervals exactly if their times are of type
`int`. -/
theorem deleteIterator_exact_iff (it : List Sample) (hit : it.Pairwise fun x y => time x ≤ time y) :
    (∀ itvls, DeleteIterator.Disjoint itvls →
        samples it itvls = it.filter fun x => !deleted itvls (time x)) ↔
      ∀ x ∈ it, -2 ^ 31 ≤ time x ∧ time x < 2 ^ 31 := by
  constructor
  · intro hall x hx
    rw [← first_eq_iff]
    by_contra hne
    have hexact := hall [⟨time x, time x⟩] ⟨by simp, pairwise_singleton _ _⟩
    have hmem : x ∈ samples it [⟨time x, time x⟩] := by
      refine mem_collect ?_ hx (Nat.lt_succ_self _)
      rw [deleted, any_eq_false]
      intro i hi
      rw [mem_singleton.1 hi, Interval.inBounds_iff]
      dsimp only
      omega
    rw [hexact, mem_filter] at hmem
    simp [deleted, Interval.inBounds] at hmem
  · intro hfits itvls hitvls
    have hfirst : ∀ x ∈ it, first x = time x := fun x hx => first_eq_iff.2 (hfits x hx)
    have hasc : it.Pairwise fun x y => first x ≤ first y :=
      hit.imp_of_mem fun hx hy hle => by rwa [hfirst _ hx, hfirst _ hy]
    rw [samples, collect_eq hitvls hasc (Nat.lt_succ_self _)]
    exact filter_congr fun x hx => by rw [hfirst x hx]

open DeleteIterator in
theorem deleteIterator_exact_small :
    samples [(1, 10), (5, 20), (9, 30)] [⟨0, 1⟩, ⟨3, 4⟩, ⟨6, 9⟩] = [(5, 20)] := by
  have hfits : ∀ x ∈ ([(1, 10), (5, 20), (9, 30)] : List Sample),
      -2 ^ 31 ≤ time x ∧ time x < 2 ^ 31 := by
    rw [forall_mem_cons, forall_mem_cons, forall_mem_singleton]
    decide
  rw [(deleteIterator_exact_iff _ (by decide)).2 hfits _ ⟨by decide, by decide⟩]
  decide

open DeleteIterator in
/-- The time `2 ^ 32` is read as 0: the sample is in an interval and is passed on. -/
theorem deleteIterator_passes :
    samples [(4294967296, 10)] [⟨4294967296, 4294967296⟩] = [(4294967296, 10)] ∧
      deleted [⟨4294967296, 4294967296⟩] (time (4294967296, 10)) = true := by
  decide

end PromTCS
