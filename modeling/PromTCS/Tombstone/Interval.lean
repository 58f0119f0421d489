import Mathlib.Algebra.Group.Int.Defs
import Mathlib.Data.Int.Order.Basic
import Mathlib.Data.List.Basic
import Mathlib.Order.MinMax

/-!
# Tombstone intervals

The deleted times of a series are a list of intervals, in ascending order and with a gap between
any two. `itvls_add` adds an interval to the list. It looks for the first interval that holds an
end of the new one or a time beside it; an interval inside the new one has neither, so that the
new one is then put before it and the two overlap.

Times are `int64_t`. A sum that leaves them is undefined and ends the run with `none`.
-/

namespace PromTCS

open List

def minInt64 : ℤ := -2 ^ 63

def maxInt64 : ℤ := 2 ^ 63 - 1

structure Interval where
  minTime : ℤ
  maxTime : ℤ
deriving DecidableEq, Repr

namespace Interval

def inBounds (i : Interval) (t : ℤ) : Bool :=
  t ≤ i.maxTime && i.minTime ≤ t

/-- `in_bounds(t) || in_bounds(beside)`, where `beside` is computed only if it is needed. -/
def meets (i : Interval) (t : ℤ) (beside : Option ℤ) : Option Bool :=
  if i.inBounds t then some true else beside.map i.inBounds

end Interval

/-- `t + 1` -/
def plusOne (t : ℤ) : Option ℤ := if t = maxInt64 then none else some (t + 1)

/-- `t - 1` -/
def minusOne (t : ℤ) : Option ℤ := if t = minInt64 then none else some (t - 1)

/-- The intervals before `cur` and those from there on. -/
def reach (itvl : Interval) : List Interval → Option (List Interval × List Interval)
  | [] => some ([], [])
  | c :: rest =>
    (plusOne itvl.maxTime).bind fun next =>
      if next < c.minTime then some ([], c :: rest)
      else (reach itvl rest).map fun p => (c :: p.1, p.2)

/-- The interval `i` is extended by `itvl`, and those it reaches are erased. -/
def extend (itvl i : Interval) (rest : List Interval) : Option (List Interval) :=
  let maxTime := max i.maxTime itvl.maxTime
  (reach itvl rest).map fun p =>
    { i with maxTime := max maxTime ((p.1.getLast?.map Interval.maxTime).getD maxTime) } :: p.2

def itvlsAdd (itvl : Interval) : List Interval → Option (List Interval)
  | [] => some [itvl]
  | i :: rest =>
    (i.meets itvl.minTime (minusOne itvl.minTime)).bind fun low =>
      if low then extend itvl i rest
      else (i.meets itvl.maxTime (plusOne itvl.maxTime)).bind fun high =>
        if high then some ({ i with minTime := itvl.minTime } :: rest)
        else if itvl.minTime < i.minTime then some (itvl :: i :: rest)
        else (itvlsAdd itvl rest).map (i :: ·)

namespace Interval

variable {i j itvl : Interval} {l l' rest : List Interval} {t : ℤ}

@[simp] theorem inBounds_iff : i.inBounds t = true ↔ i.minTime ≤ t ∧ t ≤ i.maxTime := by
  rw [inBounds, Bool.and_eq_true, decide_eq_true_eq, decide_eq_true_eq, and_comm]

/-- The interval holds a time, and its ends are of type `int64_t`. -/
structure Proper (i : Interval) : Prop where
  lower : minInt64 ≤ i.minTime
  le : i.minTime ≤ i.maxTime
  upper : i.maxTime ≤ maxInt64

structure Apart (l : List Interval) : Prop where
  proper : ∀ i ∈ l, i.Proper
  gaps : l.Pairwise fun i j => i.maxTime + 1 < j.minTime

def Covers (l : List Interval) (t : ℤ) : Prop := ∃ i ∈ l, i.inBounds t = true

def AddsRight (itvl : Interval) (l : List Interval) : Prop :=
  ∃ l', itvlsAdd itvl l = some l' ∧ Apart l' ∧
    ∀ t, Covers l' t ↔ Covers l t ∨ itvl.inBounds t = true

/-- The first interval that does not end before the time beside the new one starts no later than
it or ends no earlier, and the sums that are computed are of type `int64_t`. -/
def Addable (itvl : Interval) : List Interval → Prop
  | [] => True
  | i :: rest =>
    if i.maxTime + 1 < itvl.minTime then itvl.maxTime ≠ maxInt64 ∧ Addable itvl rest
    else (i.minTime ≤ itvl.minTime ∧ (rest = [] ∨ itvl.maxTime ≠ maxInt64)) ∨
      (itvl.minTime < i.minTime ∧ itvl.maxTime ≤ i.maxTime ∧ itvl.minTime ≠ minInt64)

theorem covers_cons : Covers (i :: l) t ↔ (i.minTime ≤ t ∧ t ≤ i.maxTime) ∨ Covers l t := by
  simp [Covers]

theorem apart_cons : Apart (i :: l) ↔
    i.Proper ∧ (∀ j ∈ l, i.maxTime + 1 < j.minTime) ∧ Apart l := by
  constructor
  · intro h
    have hgaps := pairwise_cons.1 h.gaps
    exact ⟨h.proper i mem_cons_self, hgaps.1,
      fun j hj => h.proper j (mem_cons_of_mem _ hj), hgaps.2⟩
  · rintro ⟨hi, hlt, hl⟩
    exact ⟨forall_mem_cons.2 ⟨hi, hl.proper⟩, pairwise_cons.2 ⟨hlt, hl.gaps⟩⟩

theorem lt_of_covers {x : ℤ} (h : ∀ j ∈ l, x + 1 < j.minTime) (ht : Covers l t) : x + 1 < t := by
  obtain ⟨j, hj, hin⟩ := ht
  have := h j hj
  have := (inBounds_iff.1 hin).1
  omega

theorem covers_minTime (h : Apart l) (hi : i ∈ l) : Covers l i.minTime :=
  ⟨i, hi, inBounds_iff.2 ⟨Int.le_refl _, (h.proper i hi).le⟩⟩

theorem plusOne_eq (h : t ≠ maxInt64) : plusOne t = some (t + 1) := if_neg h

theorem itvlsAdd_of_passed (hi : i.Proper) (hitvl : itvl.Proper)
    (hlt : i.maxTime + 1 < itvl.minTime) : itvlsAdd itvl (i :: rest) =
      if itvl.maxTime = maxInt64 then none else (itvlsAdd itvl rest).map (i :: ·) := by
  have hmin : itvl.minTime ≠ minInt64 := by
    have := hi.lower
    have := hi.le
    omega
  have hle := hitvl.le
  have hle' := hi.le
  have hlow : i.meets itvl.minTime (minusOne itvl.minTime) = some false := by
    rw [meets, if_neg (by rw [inBounds_iff]; omega), minusOne, if_neg hmin, Option.map_some,
      Option.some.injEq, Bool.eq_false_iff, Ne, inBounds_iff]
    omega
  rw [itvlsAdd, hlow, Option.bind_some, if_neg Bool.false_ne_true, meets,
    if_neg (by rw [inBounds_iff]; omega)]
  by_cases hmax : itvl.maxTime = maxInt64
  · rw [if_pos hmax, plusOne, if_pos hmax]
    rfl
  · have hhigh : i.inBounds (itvl.maxTime + 1) = false := by
      rw [Bool.eq_false_iff, Ne, inBounds_iff]
      omega
    rw [if_neg hmax, plusOne_eq hmax, Option.map_some, Option.bind_some, hhigh,
      if_neg Bool.false_ne_true, if_neg (by omega)]

theorem addsRight_of_passed (hl : Apart (i :: rest)) (hitvl : itvl.Proper)
    (hlt : i.maxTime + 1 < itvl.minTime) :
    AddsRight itvl (i :: rest) ↔ itvl.maxTime ≠ maxInt64 ∧ AddsRight itvl rest := by
  obtain ⟨hi, hgap, hrest⟩ := apart_cons.1 hl
  rw [AddsRight, itvlsAdd_of_passed hi hitvl hlt]
  split
  · exact iff_of_false (fun ⟨_, h, _⟩ => Option.some_ne_none _ h.symm) fun h => h.1 ‹_›
  rename_i hmax
  constructor
  · rintro ⟨l', hadd, hapart, hcovers⟩
    obtain ⟨l'', hadd', rfl⟩ := Option.map_eq_some_iff.1 hadd
    obtain ⟨-, hgap', hapart'⟩ := apart_cons.1 hapart
    refine ⟨hmax, l'', hadd', hapart', fun t => ?_⟩
    have ht := hcovers t
    rw [covers_cons, covers_cons] at ht
    by_cases hin : i.minTime ≤ t ∧ t ≤ i.maxTime
    · refine iff_of_false (fun h => ?_) ?_
      · have := lt_of_covers hgap' h
        omega
      · rintro (h | h)
        · have := lt_of_covers hgap h
          omega
        · have := inBounds_iff.1 h
          omega
    · simpa only [hin, false_or] using ht
  · rintro ⟨-, l', hadd, hapart, hcovers⟩
    refine ⟨i :: l', by rw [hadd, Option.map_some], apart_cons.2 ⟨hi, fun j hj => ?_, hapart⟩,
      fun t => ?_⟩
    · rcases (hcovers j.minTime).1 (covers_minTime hapart hj) with h | h
      · exact lt_of_covers hgap h
      · have := inBounds_iff.1 h
        omega
    · rw [covers_cons, covers_cons, hcovers, or_assoc]

theorem exists_reach (hrest : Apart rest) (h : rest = [] ∨ itvl.maxTime ≠ maxInt64) :
    ∃ erased kept, reach itvl rest = some (erased, kept) ∧ rest = erased ++ kept ∧
      (∀ c ∈ erased, c.minTime ≤ itvl.maxTime + 1) ∧ ∀ c ∈ kept, itvl.maxTime + 1 < c.minTime := by
  induction rest with
  | nil => exact ⟨[], [], rfl, rfl, by simp, by simp⟩
  | cons c rest ih =>
    obtain ⟨hc, hgap, hapart⟩ := apart_cons.1 hrest
    have hmax := h.resolve_left (cons_ne_nil _ _)
    rw [reach, plusOne_eq hmax, Option.bind_some]
    split
    · refine ⟨[], c :: rest, rfl, rfl, by simp, forall_mem_cons.2 ⟨‹_›, fun d hd => ?_⟩⟩
      have := hgap d hd
      have := hc.le
      omega
    · obtain ⟨erased, kept, hreach, hsplit, herased, hkept⟩ := ih hapart (Or.inr hmax)
      refine ⟨c :: erased, kept, by rw [hreach, Option.map_some], by rw [hsplit, cons_append],
        forall_mem_cons.2 ⟨?_, herased⟩, hkept⟩
      omega

theorem exists_top (x : ℤ) (hl : Apart l) : ∃ top,
    max x ((l.getLast?.map maxTime).getD x) = top ∧ x ≤ top ∧ (∀ c ∈ l, c.maxTime ≤ top) ∧
      (top = x ∨ ∃ c ∈ l, c.maxTime = top) := by
  refine ⟨_, rfl, le_max_left _ _, ?_, ?_⟩
  · intro c hc
    rcases eq_nil_or_concat' l with rfl | ⟨init, last, rfl⟩
    · exact absurd hc not_mem_nil
    rw [getLast?_append_of_ne_nil _ (cons_ne_nil _ _)]
    refine le_max_of_le_right ?_
    change c.maxTime ≤ last.maxTime
    rcases mem_append.1 hc with hc | hc
    · have hgap := (pairwise_append.1 hl.gaps).2.2 c hc last (mem_singleton_self _)
      have hlast := (hl.proper last (mem_append_right _ (mem_singleton_self _))).le
      omega
    · rw [mem_singleton.1 hc]
  · cases hlast : l.getLast? with
    | none => exact Or.inl (max_self x)
    | some c =>
      rcases max_choice x c.maxTime with h | h
      · exact Or.inl h
      · exact Or.inr ⟨c, mem_of_getLast? hlast, h.symm⟩

theorem addsRight_of_touched (hl : Apart (i :: rest)) (hitvl : itvl.Proper)
    (hle : itvl.minTime ≤ i.maxTime + 1) (hmin : i.minTime ≤ itvl.minTime) :
    AddsRight itvl (i :: rest) ↔ rest = [] ∨ itvl.maxTime ≠ maxInt64 := by
  obtain ⟨hi, hgap, hrest⟩ := apart_cons.1 hl
  have hlow : i.meets itvl.minTime (minusOne itvl.minTime) = some true := by
    rw [meets]
    split
    · rfl
    · rename_i hout
      rw [inBounds_iff] at hout
      have hi' := hi.le
      have hlower := hi.lower
      rw [minusOne, if_neg (by omega), Option.map_some, Option.some.injEq, inBounds_iff]
      omega
  rw [AddsRight, itvlsAdd, hlow, Option.bind_some, if_pos rfl, extend]
  constructor
  · rintro ⟨l', hadd, -⟩
    obtain ⟨p, hreach, -⟩ := Option.map_eq_some_iff.1 hadd
    refine or_iff_not_imp_right.2 fun hmax => ?_
    cases rest with
    | nil => rfl
    | cons c rest =>
      rw [reach, plusOne, if_pos (not_not.1 hmax)] at hreach
      cases hreach
  · intro hreach
    obtain ⟨erased, kept, hreach, rfl, herased, hkept⟩ := exists_reach hrest hreach
    have hgaps := pairwise_append.1 hrest.gaps
    have herasedApart : Apart erased :=
      ⟨fun c hc => hrest.proper c (mem_append_left _ hc), hgaps.1⟩
    obtain ⟨top, htop, hge, hall, hone⟩ := exists_top (max i.maxTime itvl.maxTime) herasedApart
    rw [hreach, Option.map_some, htop]
    have hgi : i.maxTime ≤ top := by omega
    have hgn : itvl.maxTime ≤ top := by omega
    have hile := hi.le
    refine ⟨_, rfl, apart_cons.2 ⟨⟨hi.lower, Int.le_trans hile hgi, ?_⟩, fun c hc => ?_,
      fun c hc => hrest.proper c (mem_append_right _ hc), hgaps.2.1⟩, fun t => ?_⟩
    · rcases hone with rfl | ⟨c, hc, rfl⟩
      · exact max_le hi.upper hitvl.upper
      · exact (herasedApart.proper c hc).upper
    · rcases hone with rfl | ⟨d, hd, rfl⟩
      · have := hkept c hc
        have := hgap c (mem_append_right _ hc)
        dsimp only
        omega
      · exact hgaps.2.2 d hd c hc
    · rw [covers_cons, covers_cons, inBounds_iff]
      have happend : Covers (erased ++ kept) t ↔ Covers erased t ∨ Covers kept t := by
        simp [Covers, or_and_right, exists_or]
      rw [happend]
      constructor
      · rintro (⟨hlo, hhi⟩ | h)
        · by_cases hti : t ≤ i.maxTime
          · exact Or.inl (Or.inl ⟨hlo, hti⟩)
          by_cases htn : t ≤ itvl.maxTime
          · exact Or.inr ⟨by omega, htn⟩
          rcases hone with rfl | ⟨c, hc, rfl⟩
          · dsimp only at hhi
            omega
          · have := herased c hc
            exact Or.inl (Or.inr (Or.inl ⟨c, hc, inBounds_iff.2 ⟨by omega, hhi⟩⟩))
        · exact Or.inl (Or.inr (Or.inr h))
      · rintro ((⟨hlo, hhi⟩ | h | h) | ⟨hlo, hhi⟩)
        · exact Or.inl ⟨hlo, Int.le_trans hhi hgi⟩
        · obtain ⟨c, hc, hin⟩ := h
          have := inBounds_iff.1 hin
          have := hgap c (mem_append_left _ hc)
          have := hall c hc
          refine Or.inl ?_
          dsimp only
          omega
        · exact Or.inr h
        · exact Or.inl ⟨Int.le_trans hmin hlo, Int.le_trans hhi hgn⟩

theorem addsRight_of_before (hl : Apart (i :: rest)) (hitvl : itvl.Proper)
    (hlt : itvl.minTime < i.minTime) :
    AddsRight itvl (i :: rest) ↔ itvl.maxTime ≤ i.maxTime ∧ itvl.minTime ≠ minInt64 := by
  obtain ⟨hi, hgap, hrest⟩ := apart_cons.1 hl
  have hile := hi.le
  have hupper := hi.upper
  rw [AddsRight, itvlsAdd, meets, if_neg (by rw [inBounds_iff]; omega)]
  by_cases hmin : itvl.minTime = minInt64
  · rw [minusOne, if_pos hmin]
    exact iff_of_false (fun ⟨_, h, _⟩ => Option.some_ne_none _ h.symm) fun h => h.2 hmin
  have hlow : i.inBounds (itvl.minTime - 1) = false := by
    rw [Bool.eq_false_iff, Ne, inBounds_iff]
    omega
  rw [minusOne, if_neg hmin, Option.map_some, Option.bind_some, hlow, if_neg Bool.false_ne_true,
    meets]
  by_cases hmax : itvl.maxTime ≤ i.maxTime
  · -- The new interval ends in the old one, beside it or before it.
    refine iff_of_true ?_ ⟨hmax, hmin⟩
    have hhigh : (if i.inBounds itvl.maxTime = true then some true
        else (plusOne itvl.maxTime).map i.inBounds) =
          some (decide (i.minTime ≤ itvl.maxTime + 1)) := by
      by_cases hin : i.minTime ≤ itvl.maxTime
      · rw [if_pos (inBounds_iff.2 ⟨hin, hmax⟩), decide_eq_true (by omega)]
      · rw [if_neg (by rw [inBounds_iff]; omega), plusOne_eq (by omega), Option.map_some,
          Option.some.injEq, Bool.eq_iff_iff, inBounds_iff, decide_eq_true_eq]
        omega
    rw [hhigh, Option.bind_some]
    by_cases hjoin : i.minTime ≤ itvl.maxTime + 1
    · rw [if_pos (decide_eq_true hjoin)]
      refine ⟨_, rfl, apart_cons.2 ⟨⟨hitvl.lower, ?_, hupper⟩, hgap, hrest⟩, fun t => ?_⟩
      · dsimp only
        omega
      · rw [covers_cons, covers_cons, inBounds_iff]
        by_cases hc : Covers rest t
        · simp [hc]
        · simp only [hc, or_false]
          omega
    · rw [if_neg (by simpa using hjoin), if_pos hlt]
      refine ⟨_, rfl, apart_cons.2 ⟨hitvl, forall_mem_cons.2 ⟨by omega, fun j hj => ?_⟩, hl⟩,
        fun t => ?_⟩
      · have := hgap j hj
        omega
      · rw [covers_cons, inBounds_iff, or_comm]
  · -- The old interval is inside the new one and stays.
    refine iff_of_false ?_ fun h => hmax h.1
    rintro ⟨l', hadd, hapart, -⟩
    rw [if_neg (by rw [inBounds_iff]; omega)] at hadd
    by_cases hlast : itvl.maxTime = maxInt64
    · rw [plusOne, if_pos hlast] at hadd
      cases hadd
    · have hhigh : i.inBounds (itvl.maxTime + 1) = false := by
        rw [Bool.eq_false_iff, Ne, inBounds_iff]
        omega
      rw [plusOne_eq hlast, Option.map_some, Option.bind_some, hhigh, if_neg Bool.false_ne_true,
        if_pos hlt] at hadd
      cases hadd
      have := (apart_cons.1 hapart).2.1 i mem_cons_self
      omega

end Interval

open Interval in
/-- `itvls_add` forms the union exactly if the interval is addable. -/
theorem itvlsAdd_union_iff (itvl : Interval) (hitvl : itvl.Proper) (l : List Interval)
    (hl : Apart l) : AddsRight itvl l ↔ Addable itvl l := by
  induction l with
  | nil =>
    refine iff_of_true ⟨[itvl], rfl, ⟨by simpa using hitvl, pairwise_singleton _ _⟩, ?_⟩ trivial
    intro t
    simp [Covers]
  | cons i rest ih =>
    rw [Addable]
    split
    · rw [addsRight_of_passed hl hitvl ‹_›, ih (apart_cons.1 hl).2.2]
    · rename_i hle
      by_cases hlt : itvl.minTime < i.minTime
      · rw [addsRight_of_before hl hitvl hlt]
        constructor
        · exact fun h => Or.inr ⟨hlt, h⟩
        · rintro (h | h)
          · exact absurd h.1 (Int.not_le.2 hlt)
          · exact h.2
      · have hge := Int.not_lt.1 hlt
        rw [addsRight_of_touched hl hitvl (by omega) hge]
        constructor
        · exact fun h => Or.inl ⟨hge, h⟩
        · rintro (h | h)
          · exact h.2
          · exact absurd h.1 hlt

open Interval in
/-- The interval from 3 to 8 joins what is beside it on both sides. -/
theorem itvlsAdd_union_bridging :
    itvlsAdd ⟨3, 8⟩ [⟨1, 2⟩, ⟨5, 6⟩, ⟨9, 9⟩, ⟨20, 30⟩] = some [⟨1, 9⟩, ⟨20, 30⟩] ∧
      AddsRight ⟨3, 8⟩ [⟨1, 2⟩, ⟨5, 6⟩, ⟨9, 9⟩, ⟨20, 30⟩] := by
  refine ⟨by decide, (itvlsAdd_union_iff ⟨3, 8⟩ ⟨by decide, by decide, by decide⟩ _
    ⟨?_, by decide⟩).2 ?_⟩
  · simp only [forall_mem_cons, not_mem_nil, IsEmpty.forall_iff, implies_true, and_true]
    exact ⟨⟨by decide, by decide, by decide⟩, ⟨by decide, by decide, by decide⟩,
      ⟨by decide, by decide, by decide⟩, ⟨by decide, by decide, by decide⟩⟩
  · rw [Addable, if_neg (by decide)]
    exact Or.inl ⟨by decide, Or.inr (by decide)⟩

open Interval in
/-- The interval from 1 to 10 is put before the one from 5 to 6 that is inside it. -/
theorem itvlsAdd_covering : Apart [⟨5, 6⟩] ∧ ¬ AddsRight ⟨1, 10⟩ [⟨5, 6⟩] := by
  refine ⟨⟨?_, by decide⟩, ?_⟩
  · rw [forall_mem_singleton]
    exact ⟨by decide, by decide, by decide⟩
  · rintro ⟨l', hadd, hapart, -⟩
    obtain rfl : [⟨1, 10⟩, ⟨5, 6⟩] = l' := Option.some.inj hadd
    exact absurd hapart.gaps (by decide)

end PromTCS
