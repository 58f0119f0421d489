import PromTCS.Lib.SeekBack
import PromTCS.Lsm.InternalKey

/-!
# Iterators over the levels

`MemtableIterator`, `L0TreeSeriesIterator` and `L1TreeSeriesIterator` collect the entries of a
series that may reach into a range, and read the collected values as slabs. An entry is stored
under the time of its first sample, so the one that covers the start of the range is in front of
the key that is looked for, and `GetSlabArray` steps back once from there.
-/

namespace PromTCS

open List SeekBack

def kMaxSequenceNumber : ℕ := 2 ^ 56 - 1

/-- The key of a `LookupKey` with the largest sequence number. -/
def lookupKey (k : TreeKey) : InternalKey := ⟨k, kMaxSequenceNumber⟩

/-- The comparison of the ids that `DeCodeKey` returns. -/
def Entry.ofSeries (k : TreeKey) (e : Entry) : Bool :=
  decide (TreeKey.SameSeries k e.ikey.user)

/-- `Next` where the iterator stands at an entry of another series. -/
def skipOther (k : TreeKey) : List Entry → List Entry
  | [] => []
  | e :: es => if e.ofSeries k then e :: es else es

/-- The first entry and the loop after it; `stop` ends the loop at a time. -/
def collectSeries (stop : Word → Bool) (k : TreeKey) : List Entry → List Entry
  | [] => []
  | e :: es =>
    if e.ofSeries k then e :: es.takeWhile fun f => f.ofSeries k && !stop f.ikey.user.t
    else []

/-- What the three `GetSlabArray` have in common. A `Seek` that finds nothing is an error; after
a `Prev` that leaves the table the iterator seeks again. -/
def seekSlabArray (stop : Word → Bool) (k : TreeKey) (entries : List Entry) : List Entry :=
  if (seek Entry.ikey (lookupKey k) entries).isEmpty then []
  else collectSeries stop k (skipOther k (seekBack Entry.ikey (lookupKey k) entries))

/-- The constructor sets a negative `min_time_` to zero. -/
def MemtableIterator.minTime (minTime : Word) : Word :=
  if minTime.toInt < 0 then 0#64 else minTime

variable (sgid : Word) (mid : BitVec 16)

def MemtableIterator.getSlabArray (minTime : Word)
    (entries : List Entry) : List Entry :=
  seekSlabArray (fun _ => false) ⟨sgid, mid, MemtableIterator.minTime minTime⟩ entries

/-- The time of the key is unsigned, and so is the comparison with `max_time_`. -/
def L0TreeSeriesIterator.getSlabArray (minTime maxTime : Word)
    (entries : List Entry) : List Entry :=
  seekSlabArray (fun t => decide (maxTime.toNat < t.toNat)) ⟨sgid, mid, minTime⟩ entries

def L1TreeSeriesIterator.getSlabArray (minTime : Word)
    (entries : List Entry) : List Entry :=
  seekSlabArray (fun _ => false) ⟨sgid, mid, minTime⟩ entries

/-! ## What is collected -/

section Collect

variable {stop : Word → Bool} {k : TreeKey} {entries : List Entry}
  {b e : Entry}

theorem ofSeries_of_between {a c : Entry} (hab : a.ikey ≤ b.ikey) (hbc : b.ikey ≤ c.ikey)
    (ha : a.ofSeries k = true) (hc : c.ofSeries k = true) : b.ofSeries k = true := by
  have ha' := of_decide_eq_true ha
  have hc' := of_decide_eq_true hc
  have hac : TreeKey.SameSeries a.ikey.user c.ikey.user :=
    ⟨ha'.1.symm.trans hc'.1, ha'.2.symm.trans hc'.2⟩
  have hb := TreeKey.sameSeries_of_between (InternalKey.user_le_of_le hab)
    (InternalKey.user_le_of_le hbc) hac
  exact decide_eq_true ⟨ha'.1.trans hb.1, ha'.2.trans hb.2⟩

theorem ofSeries_of_lookup_le {c : Entry} (hb : lookupKey k ≤ b.ikey) (hbc : b.ikey ≤ c.ikey)
    (hc : c.ofSeries k = true) : b.ofSeries k = true :=
  ofSeries_of_between (a := ⟨lookupKey k, []⟩) hb hbc (decide_eq_true ⟨rfl, rfl⟩) hc

theorem ofSeries_of_le_lookup {a : Entry} (hab : a.ikey ≤ b.ikey) (hb : b.ikey ≤ lookupKey k)
    (ha : a.ofSeries k = true) : b.ofSeries k = true :=
  ofSeries_of_between (c := ⟨lookupKey k, []⟩) hab hb ha (decide_eq_true ⟨rfl, rfl⟩)

theorem skipOther_sublist (k : TreeKey) (l : List Entry) : (skipOther k l).Sublist l := by
  cases l with
  | nil => exact nil_sublist _
  | cons e es =>
    rw [skipOther]
    split_ifs
    · exact List.Sublist.refl _
    · exact sublist_cons_self e es

theorem mem_of_mem_collectSeries {l : List Entry} (h : e ∈ collectSeries stop k l) :
    e ∈ l ∧ e.ofSeries k = true := by
  cases l with
  | nil => exact absurd h not_mem_nil
  | cons f l =>
    rw [collectSeries] at h
    split_ifs at h with hf
    · rcases mem_cons.1 h with rfl | he
      · exact ⟨mem_cons_self, hf⟩
      · have hp := mem_takeWhile_imp he
        rw [Bool.and_eq_true] at hp
        exact ⟨mem_cons_of_mem f ((takeWhile_sublist _).subset he), hp.1⟩
    · exact absurd h not_mem_nil

theorem mem_collectSeries {f : Entry} {l : List Entry}
    (hl : (f :: l).Pairwise fun x y => x.ikey < y.ikey) (hf : f.ofSeries k = true) (he : e ∈ f :: l)
    (hseries : e.ofSeries k = true)
    (hstop : ∀ x ∈ l, x.ofSeries k = true → x.ikey ≤ e.ikey → stop x.ikey.user.t = false) :
    e ∈ collectSeries stop k (f :: l) := by
  rw [collectSeries, if_pos hf]
  refine (mem_cons.1 he).elim (fun h => h ▸ mem_cons_self) fun he => ?_
  refine mem_cons_of_mem f ?_
  obtain ⟨hfl, hl⟩ := pairwise_cons.1 hl
  obtain ⟨pre, post, rfl⟩ := append_of_mem he
  have hupTo : ∀ x ∈ pre ++ [e], x.ikey ≤ e.ikey := by
    intro x hx
    rcases mem_append.1 hx with hx | hx
    · exact ((pairwise_append.1 hl).2.2 x hx e mem_cons_self).le
    · rw [mem_singleton.1 hx]
  have hgoesOn : ∀ x ∈ pre ++ [e], (x.ofSeries k && !stop x.ikey.user.t) = true := by
    intro x hx
    have hmem : x ∈ pre ++ e :: post := by
      rw [append_cons]
      exact mem_append_left _ hx
    have hxs := ofSeries_of_between (hfl x hmem).le (hupTo x hx) hf hseries
    rw [hxs, hstop x hmem hxs (hupTo x hx)]
    rfl
  rw [append_cons, takeWhile_append_of_pos hgoesOn]
  exact mem_append_left _ (mem_append_right _ mem_cons_self)

section

variable (hsorted : entries.Pairwise fun x y => x.ikey < y.ikey)
include hsorted

theorem mem_of_mem_seekSlabArray
    (h : e ∈ seekSlabArray stop k entries) :
    e ∈ entries ∧ e.ofSeries k = true ∧ ∀ f ∈ entries, e.ikey < f.ikey → lookupKey k ≤ f.ikey := by
  unfold seekSlabArray at h
  split_ifs at h
  · exact absurd h not_mem_nil
  · obtain ⟨hmem, hseries⟩ := mem_of_mem_collectSeries h
    obtain ⟨he, hlater⟩ := (mem_seekBack hsorted).1 ((skipOther_sublist k _).subset hmem)
    exact ⟨he, hseries, hlater⟩

theorem seekSlabArray_eq_nil
    (h : ¬ ∃ f ∈ entries, lookupKey k ≤ f.ikey) : seekSlabArray stop k entries = [] := by
  have hnil : seek Entry.ikey (lookupKey k) entries = [] :=
    eq_nil_iff_forall_not_mem.2 fun f hf => h ⟨f, (mem_seek hsorted).1 hf⟩
  rw [seekSlabArray, hnil]
  rfl

theorem mem_seekSlabArray
    (hfound : ∃ f ∈ entries, lookupKey k ≤ f.ikey) (he : e ∈ entries)
    (hseries : e.ofSeries k = true)
    (hlater : ∀ f ∈ entries, f.ofSeries k = true → e.ikey < f.ikey → lookupKey k ≤ f.ikey)
    (hstop : ∀ f ∈ entries, f.ofSeries k = true → f.ikey ≤ e.ikey → stop f.ikey.user.t = false) :
    e ∈ seekSlabArray stop k entries := by
  obtain ⟨f₀, hf₀⟩ := hfound
  have hseek : f₀ ∈ seek Entry.ikey (lookupKey k) entries :=
    (mem_seek hsorted).2 hf₀
  have hback : e ∈ seekBack Entry.ikey (lookupKey k) entries := by
    refine (mem_seekBack hsorted).2 ⟨he, fun f hf hlt => ?_⟩
    by_contra hbelow
    have hf' := ofSeries_of_le_lookup hlt.le (not_le.1 hbelow).le hseries
    exact hbelow (hlater f hf hf' hlt)
  have hsub := seekBack_sublist Entry.ikey (lookupKey k) entries
  rw [seekSlabArray, if_neg (by simp [ne_nil_of_mem hseek])]
  cases hcons : seekBack Entry.ikey (lookupKey k) entries with
  | nil =>
    rw [hcons] at hback
    exact absurd hback not_mem_nil
  | cons x l =>
    rw [hcons] at hback hsub
    have hl := hsorted.sublist hsub
    have hstop' : ∀ y ∈ x :: l, y.ofSeries k = true → y.ikey ≤ e.ikey →
        stop y.ikey.user.t = false := fun y hy => hstop y (hsub.subset hy)
    rw [skipOther]
    by_cases hx : x.ofSeries k = true
    · rw [if_pos hx]
      exact mem_collectSeries hl hx hback hseries
        fun y hy => hstop' y (mem_cons_of_mem x hy)
    · rw [if_neg hx]
      -- The step back left the series, so the next entry is the one that was sought.
      have hmem : e ∈ l := (mem_cons.1 hback).resolve_left fun h => hx (h ▸ hseries)
      cases l with
      | nil => exact absurd hmem not_mem_nil
      | cons y l =>
        have hl' := (pairwise_cons.1 hl).2
        have hy := le_of_seekBack_eq_cons hsorted hcons mem_cons_self
        have hye : y.ikey ≤ e.ikey := by
          rcases mem_cons.1 hmem with rfl | hmem
          · exact le_rfl
          · exact ((pairwise_cons.1 hl').1 e hmem).le
        exact mem_collectSeries hl' (ofSeries_of_lookup_le hy hye hseries) hmem hseries
          fun z hz => hstop' z (mem_cons_of_mem x (mem_cons_of_mem y hz))

end

end Collect

/-! ## Completeness of the lookup -/

structure TimeDisjoint (k : TreeKey) (times : Entry → List ℤ) (entries : List Entry) : Prop where
  start_le : ∀ e ∈ entries, e.ofSeries k = true → ∀ x ∈ times e, (e.ikey.user.t.toNat : ℤ) ≤ x
  lt_start : ∀ e ∈ entries, ∀ f ∈ entries, e.ofSeries k = true → f.ofSeries k = true →
    e.ikey < f.ikey → ∀ x ∈ times e, x < f.ikey.user.t.toNat

def reaching (k : TreeKey) (times : Entry → List ℤ) (minTime maxTime : Word)
    (entries : List Entry) : List Entry :=
  entries.filter fun e => e.ofSeries k &&
    (times e).any fun x => decide (minTime.toInt ≤ x ∧ x ≤ maxTime.toInt)

section Complete

variable {stop : Word → Bool} {k : TreeKey} {times : Entry → List ℤ} {entries : List Entry}
  {e f : Entry}

theorem mem_reaching {minTime maxTime : Word} :
    e ∈ reaching k times minTime maxTime entries ↔ e ∈ entries ∧ e.ofSeries k = true ∧
      ∃ x ∈ times e, minTime.toInt ≤ x ∧ x ≤ maxTime.toInt := by
  simp only [reaching, mem_filter, Bool.and_eq_true, any_eq_true, decide_eq_true_eq]

theorem lookupKey_le_of_t_lt (hf : f.ofSeries k = true) (h : k.t.toNat < f.ikey.user.t.toNat) :
    lookupKey k ≤ f.ikey :=
  InternalKey.le_iff.2 (Or.inl (TreeKey.rank_lt_of_t_lt (of_decide_eq_true hf) h))

theorem t_le_of_le (he : e.ofSeries k = true) (hf : f.ofSeries k = true) (h : f.ikey ≤ e.ikey) :
    f.ikey.user.t.toNat ≤ e.ikey.user.t.toNat := by
  by_contra hlt
  have he' := of_decide_eq_true he
  have hf' := of_decide_eq_true hf
  have hsame : TreeKey.SameSeries e.ikey.user f.ikey.user :=
    ⟨he'.1.symm.trans hf'.1, he'.2.symm.trans hf'.2⟩
  exact absurd (InternalKey.user_le_of_le h)
    (TreeKey.rank_lt_of_t_lt hsame (not_le.1 hlt)).not_ge

theorem TimeDisjoint.lookupKey_le (h : TimeDisjoint k times entries) (he : e ∈ entries)
    (hf : f ∈ entries) (heseries : e.ofSeries k = true) (hfseries : f.ofSeries k = true)
    (hlt : e.ikey < f.ikey) {x : ℤ} (hx : x ∈ times e) (hmin : (k.t.toNat : ℤ) ≤ x) :
    lookupKey k ≤ f.ikey := by
  have hxf := h.lt_start e he f hf heseries hfseries hlt x hx
  exact lookupKey_le_of_t_lt hfseries (by omega)

theorem TimeDisjoint.t_le (h : TimeDisjoint k times entries) (he : e ∈ entries)
    (heseries : e.ofSeries k = true) (hfseries : f.ofSeries k = true) (hle : f.ikey ≤ e.ikey)
    {x : ℤ} (hx : x ∈ times e) : (f.ikey.user.t.toNat : ℤ) ≤ x := by
  have hfe := t_le_of_le heseries hfseries hle
  have hex := h.start_le e he heseries x hx
  omega

theorem reaching_subset_seekSlabArray_iff
    (hsorted : entries.Pairwise fun x y => x.ikey < y.ikey) (h : TimeDisjoint k times entries)
    {minTime maxTime : Word}
    (hstop : ∀ t : Word, (t.toNat : ℤ) ≤ maxTime.toInt → stop t = false) :
    reaching k times minTime maxTime entries ⊆ seekSlabArray stop k entries ↔
      (reaching k times minTime maxTime entries = [] ∨ ∃ f ∈ entries, lookupKey k ≤ f.ikey) ∧
      ∀ e ∈ reaching k times minTime maxTime entries, ∀ f ∈ entries, f.ofSeries k = true →
        e.ikey < f.ikey → lookupKey k ≤ f.ikey := by
  constructor
  · intro hsub
    refine ⟨?_, fun e he f hf _ hlt => (mem_of_mem_seekSlabArray hsorted (hsub he)).2.2 f hf hlt⟩
    refine or_iff_not_imp_right.2 fun hfound => ?_
    rw [seekSlabArray_eq_nil hsorted hfound] at hsub
    exact subset_nil.1 hsub
  · rintro ⟨hfound, hlater⟩ e he
    obtain ⟨hmem, hseries, x, hx, -, hmax⟩ := mem_reaching.1 he
    refine mem_seekSlabArray hsorted (hfound.resolve_left (ne_nil_of_mem he)) hmem hseries
      (hlater e he) fun f _ hf hle => hstop _ ?_
    exact (h.t_le hmem hseries hf hle hx).trans hmax

theorem TimeDisjoint.lookupKey_le_of_reaching (h : TimeDisjoint k times entries)
    (minTime maxTime : Word)
    (hmin : ∀ x : ℤ, 0 ≤ x → minTime.toInt ≤ x → (k.t.toNat : ℤ) ≤ x) :
    ∀ e ∈ reaching k times minTime maxTime entries, ∀ f ∈ entries, f.ofSeries k = true →
      e.ikey < f.ikey → lookupKey k ≤ f.ikey := by
  intro e he f hf hfseries hlt
  obtain ⟨hmem, hseries, x, hx, hminx, -⟩ := mem_reaching.1 he
  have hstart := h.start_le e hmem hseries x hx
  exact h.lookupKey_le hmem hf hseries hfseries hlt hx (hmin x (by omega) hminx)

end Complete

/-- The three lookups collect only entries of the series. They collect every entry that holds a
sample of the range if and only if some entry of the table is not below the key that is looked
for, or nothing is to be found, and, for the levels, the start of the range is not negative or
its encoding as an unsigned time leaves no entry out. -/
theorem getSlabArray_complete_iff {entries : List Entry}
    (hsorted : entries.Pairwise fun x y => x.ikey < y.ikey) (sgid : Word) (mid : BitVec 16)
    (minTime maxTime : Word) {times : Entry → List ℤ}
    (h : TimeDisjoint ⟨sgid, mid, minTime⟩ times entries) :
    let k : TreeKey := ⟨sgid, mid, minTime⟩
    let reached := reaching k times minTime maxTime entries
    let mem := MemtableIterator.getSlabArray sgid mid minTime entries
    let l0 := L0TreeSeriesIterator.getSlabArray sgid mid minTime maxTime entries
    let l1 := L1TreeSeriesIterator.getSlabArray sgid mid minTime entries
    let condition := (reached = [] ∨ ∃ f ∈ entries, lookupKey k ≤ f.ikey) ∧
      (0 ≤ minTime.toInt ∨ ∀ e ∈ reached, ∀ f ∈ entries, f.ofSeries k = true →
        e.ikey < f.ikey → lookupKey k ≤ f.ikey)
    (∀ l ∈ [mem, l0, l1], ∀ e ∈ l, e ∈ entries ∧ e.ofSeries k = true) ∧
      (reached ⊆ mem ↔ reached = [] ∨ ∃ f ∈ entries,
        lookupKey ⟨sgid, mid, MemtableIterator.minTime minTime⟩ ≤ f.ikey) ∧
      (reached ⊆ l0 ↔ condition) ∧ (reached ⊆ l1 ↔ condition) := by
  intro k reached mem l0 l1 condition
  have hl0 : ∀ t : Word, (t.toNat : ℤ) ≤ maxTime.toInt →
      decide (maxTime.toNat < t.toNat) = false := by
    intro t ht
    have hle := BitVec.toInt_eq_toNat_cond maxTime
    refine decide_eq_false ?_
    split_ifs at hle <;> omega
  have hcondition : condition ↔ (reached = [] ∨ ∃ f ∈ entries, lookupKey k ≤ f.ikey) ∧
      ∀ e ∈ reached, ∀ f ∈ entries, f.ofSeries k = true → e.ikey < f.ikey →
        lookupKey k ≤ f.ikey := by
    refine and_congr_right fun _ => ⟨fun hor => hor.elim (fun hmin => ?_) id, Or.inr⟩
    refine h.lookupKey_le_of_reaching minTime maxTime fun x _ hx => ?_
    have heq := BitVec.toInt_eq_toNat_cond minTime
    have hk : k.t = minTime := rfl
    rw [hk]
    split_ifs at heq <;> omega
  refine ⟨?_, ?_, ?_, ?_⟩
  · intro l hl e he
    simp only [mem_cons, not_mem_nil, or_false] at hl
    have hmem : ∃ stop t, e ∈ seekSlabArray stop ⟨sgid, mid, t⟩ entries := by
      rcases hl with rfl | rfl | rfl <;> exact ⟨_, _, he⟩
    obtain ⟨stop, t, hmem⟩ := hmem
    have hin := mem_of_mem_seekSlabArray hsorted hmem
    exact ⟨hin.1, hin.2.1⟩
  · have hmem : TimeDisjoint ⟨sgid, mid, MemtableIterator.minTime minTime⟩ times entries :=
      ⟨h.start_le, h.lt_start⟩
    have hlater := hmem.lookupKey_le_of_reaching minTime maxTime fun x hx hmin => by
      have heq := BitVec.toInt_eq_toNat_cond minTime
      dsimp only [MemtableIterator.minTime]
      split_ifs with hneg
      · exact hx
      · split_ifs at heq <;> omega
    exact (reaching_subset_seekSlabArray_iff hsorted hmem fun _ _ => rfl).trans
      (and_iff_left hlater)
  · exact (reaching_subset_seekSlabArray_iff hsorted h hl0).trans hcondition.symm
  · exact (reaching_subset_seekSlabArray_iff hsorted h fun _ _ => rfl).trans hcondition.symm

def firstEntry : Entry := ⟨⟨⟨1#64, 1#16, 10#64⟩, 1⟩, []⟩

/-- With an entry of another series behind it the entry is found. -/
theorem getSlabArray_complete_of_following :
    let entries : List Entry := [firstEntry, ⟨⟨⟨2#64, 1#16, 5#64⟩, 2⟩, []⟩]
    reaching ⟨1#64, 1#16, 15#64⟩ (fun _ => [10, 20]) 15#64 25#64 entries ⊆
      MemtableIterator.getSlabArray 1#64 1#16 15#64 entries := by
  intro entries
  have hsorted : entries.Pairwise fun x y => x.ikey < y.ikey := by decide +kernel
  have hdisjoint : TimeDisjoint ⟨1#64, 1#16, 15#64⟩ (fun _ => [10, 20]) entries :=
    ⟨by decide +kernel, by decide +kernel⟩
  exact (getSlabArray_complete_iff hsorted 1#64 1#16 15#64 25#64 hdisjoint).2.1.2
    (Or.inr (by decide +kernel))

/-- The entry holds the samples at 10 and 20 and is the last one of the table. A range that starts
at 15 does not find it. -/
theorem getSlabArray_misses_last :
    [firstEntry].Pairwise (fun x y => x.ikey < y.ikey) ∧
      TimeDisjoint ⟨1#64, 1#16, 15#64⟩ (fun _ => [10, 20]) [firstEntry] ∧
      firstEntry ∈ reaching ⟨1#64, 1#16, 15#64⟩ (fun _ => [10, 20]) 15#64 25#64 [firstEntry] ∧
      MemtableIterator.getSlabArray 1#64 1#16 15#64 [firstEntry] = [] ∧
      L0TreeSeriesIterator.getSlabArray 1#64 1#16 15#64 25#64 [firstEntry] = [] ∧
      L1TreeSeriesIterator.getSlabArray 1#64 1#16 15#64 [firstEntry] = [] :=
  ⟨by decide +kernel, ⟨by decide +kernel, by decide +kernel⟩, by decide +kernel,
    by decide +kernel, by decide +kernel, by decide +kernel⟩

end PromTCS
