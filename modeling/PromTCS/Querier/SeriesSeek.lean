import Mathlib.Data.List.Sort
import PromTCS.Querier.TreeHeadIterator

/-!
# seek

After some calls of `next`, `seek(t)` is to go to the first sample that is not before `t`, among
the current sample and those behind it, and `next` is to go on from there.

`TreeHeadIterator::seek` advances before it looks at a sample, so the current one, or the first of
the range, is passed over. `SlabArrayIterator::seek` returns `false`. `MergeSeriesIterator::seek`
erases the iterators whose `seek` fails, so the merge shows the union of what the others keep.
-/

namespace PromTCS

open List Iteration SeriesIteratorInterface LastUnion

open SlabArrayIterator (mixedSlab)

open Sample (time)

namespace SeriesIteratorInterface

variable {σ : Type*} {I : SeriesIteratorInterface σ} {s : σ} {l : List Sample}

theorem after_succ (k : ℕ) (s : σ) : I.after (k + 1) s = (I.next (I.after k s)).2 :=
  Function.iterate_succ_apply' _ k s

theorem eq_of_taken {s' : σ} (h : taken I.next s = some s') : s' = (I.next s).2 := by
  unfold taken at h
  split_ifs at h
  exact (Option.some.inj h).symm

theorem Yields.after (h : I.Yields s l) {j : ℕ} (hj : j ≤ l.length) :
    I.Yields (I.after j s) (l.drop j) := by
  induction j with
  | zero => exact h
  | succ j ih =>
    have hyields := ih (Nat.le_of_succ_le hj)
    rw [drop_eq_getElem_cons hj] at hyields
    obtain ⟨s', htaken, -, hrest⟩ := hyields
    rw [after_succ, ← eq_of_taken htaken]
    exact hrest

theorem Yields.at_after (h : I.Yields s l) {j : ℕ} (hj : j < l.length) :
    taken I.next (I.after j s) = some (I.after (j + 1) s) ∧
      I.at' (I.after (j + 1) s) = l[j] := by
  have hyields := h.after hj.le
  rw [drop_eq_getElem_cons hj] at hyields
  obtain ⟨s', htaken, hat, -⟩ := hyields
  have hs' := eq_of_taken htaken
  rw [← after_succ] at hs'
  exact ⟨hs' ▸ htaken, hs' ▸ hat⟩

/-- `seek(t)` goes to the first of these samples, and `next` goes on with the others. -/
def SeeksTo (I : SeriesIteratorInterface σ) (t : ℤ) (s : σ) : List Sample → Prop
  | [] => (I.seek t s).1 = false
  | x :: l => (I.seek t s).1 = true ∧ I.at' (I.seek t s).2 = x ∧ I.Yields (I.seek t s).2 l

theorem SeeksTo.unique {t : ℤ} {l' : List Sample} (h : I.SeeksTo t s l)
    (h' : I.SeeksTo t s l') : l = l' := by
  cases l with
  | nil =>
    cases l' with
    | nil => rfl
    | cons y l' => exact absurd (h'.1.symm.trans h) Bool.true_eq_false.mp
  | cons x l =>
    cases l' with
    | nil => exact absurd (h.1.symm.trans h') Bool.true_eq_false.mp
    | cons y l' =>
      obtain ⟨-, hx, hl⟩ := h
      obtain ⟨-, hy, hl'⟩ := h'
      rw [← hx, ← hy, hl.unique hl']

/-- The contract of `seek`, for an iterator that shows `l`, after `k` calls of `next`. The samples
at or after the current position are those from the `k`-th on, or all of them. -/
def SeekMeets (I : SeriesIteratorInterface σ) (s : σ) (l : List Sample) (k : ℕ) (t : ℤ) : Prop :=
  I.SeeksTo t (I.after k s) ((l.drop (k - 1)).filter fun x => decide (t ≤ time x))

def sum {τ : Type*} (I : SeriesIteratorInterface σ) (J : SeriesIteratorInterface τ) :
    SeriesIteratorInterface (σ ⊕ τ) where
  seek t := Sum.elim (fun s => (I.seek t s).map id Sum.inl) fun s => (J.seek t s).map id Sum.inr
  at' := Sum.elim I.at' J.at'
  next := Sum.elim (fun s => (I.next s).map id Sum.inl) fun s => (J.next s).map id Sum.inr

structure Embeds {τ : Type*} (I : SeriesIteratorInterface σ) (J : SeriesIteratorInterface τ)
    (f : σ → τ) : Prop where
  seek_eq : ∀ t s, J.seek t (f s) = (I.seek t s).map id f
  at_eq : ∀ s, J.at' (f s) = I.at' s
  next_eq : ∀ s, J.next (f s) = (I.next s).map id f

section Embeds

variable {τ : Type*} {J : SeriesIteratorInterface τ}

theorem embeds_inl : Embeds I (I.sum J) Sum.inl := ⟨fun _ _ => rfl, fun _ => rfl, fun _ => rfl⟩

theorem embeds_inr : Embeds J (I.sum J) Sum.inr := ⟨fun _ _ => rfl, fun _ => rfl, fun _ => rfl⟩

variable {f : σ → τ} (hf : Embeds I J f)
include hf

theorem Embeds.yields (h : I.Yields s l) : J.Yields (f s) l := by
  have htaken : ∀ s, taken J.next (f s) = (taken I.next s).map f := by
    intro s
    unfold taken
    rw [hf.next_eq]
    change (if (I.next s).1 = true then _ else _) = _
    split_ifs <;> rfl
  induction l generalizing s with
  | nil =>
    change taken J.next (f s) = none
    rw [htaken, show taken I.next s = none from h]
    rfl
  | cons x l ih =>
    obtain ⟨s', hsome, rfl, hl⟩ := h
    exact ⟨f s', by rw [htaken, hsome]; rfl, hf.at_eq s', ih hl⟩

theorem Embeds.after (k : ℕ) (s : σ) : J.after k (f s) = f (I.after k s) := by
  induction k with
  | zero => rfl
  | succ k ih =>
    rw [after_succ, after_succ, ih, hf.next_eq]
    rfl

theorem Embeds.seeksTo {t : ℤ} (h : I.SeeksTo t s l) : J.SeeksTo t (f s) l := by
  cases l with
  | nil =>
    change (J.seek t (f s)).1 = false
    rw [hf.seek_eq]
    exact h
  | cons x l =>
    rw [SeeksTo, hf.seek_eq]
    exact ⟨h.1, (hf.at_eq _).trans h.2.1, hf.yields h.2.2⟩

end Embeds

end SeriesIteratorInterface

/-! ## TreeHeadIterator -/

namespace TreeHeadIterator

variable {it : TreeHeadIterator} {l : List Sample}

theorem Left.after (h : it.Left l) (k : ℕ) : (interface.after k it).Left (l.drop k) := by
  induction k with
  | zero => exact h
  | succ k ih =>
    rw [after_succ, ← tail_drop]
    exact ih.next.2

theorem Left.at_eq {x : Sample} (h : it.Left (x :: l)) : it.ended = false ∧ it.at' = x := by
  rcases h with ⟨hnil, -⟩ | ⟨y, rest, hshown, heq⟩
  · cases hnil
  · refine ⟨hshown.ended, ?_⟩
    rw [at', if_neg (by simp [hshown.ended]), hshown.at_eq, (List.cons.inj heq).1]

theorem Left.yields (h : it.Left l) : interface.Yields it l.tail := by
  induction hl : l.tail generalizing it l with
  | nil =>
    have hnext := h.next.1
    rw [hl] at hnext
    change taken TreeHeadIterator.next it = none
    rw [taken, hnext]
    rfl
  | cons x tail ih =>
    obtain ⟨hnext, hleft⟩ := h.next
    rw [hl] at hnext hleft
    refine ⟨it.next.2, ?_, ?_, ih hleft rfl⟩
    · change taken TreeHeadIterator.next it = some it.next.2
      rw [taken, hnext]
      rfl
    · exact hleft.at_eq.2

theorem Left.ended_of_nil (h : it.Left []) : it.ended = true := by
  rcases h with ⟨-, -, hend⟩ | ⟨y, rest, -, heq⟩
  · exact hend
  · cases heq

theorem Left.init (h : it.Left l) : it.init = true := by
  rcases h with ⟨-, hinit, -⟩ | ⟨x, rest, hshown, -⟩
  · exact hinit
  · exact hshown.init

theorem Left.le_max (h : it.Left l) {x : Sample} (hx : x ∈ l) : time x ≤ it.maxTime := by
  rcases h with ⟨rfl, -⟩ | ⟨y, rest, hshown, rfl⟩
  · exact absurd hx not_mem_nil
  · rcases mem_cons.1 hx with rfl | hx
    · exact hshown.le_max
    · exact of_decide_eq_true (mem_filter.1 hx).2

theorem Left.seeksTo (h : it.Left l) (t : ℤ) :
    interface.SeeksTo t it (l.tail.filter fun x => decide (t ≤ time x)) := by
  by_cases hmax : it.maxTime < t
  · have hnil : l.tail.filter (fun x => decide (t ≤ time x)) = [] := by
      refine filter_eq_nil_iff.2 fun x hx hle => ?_
      have hle := of_decide_eq_true hle
      have hx := h.le_max (mem_of_mem_tail hx)
      omega
    rw [hnil]
    change (seek t it).1 = false
    rw [seek, if_pos hmax]
  · rcases h with ⟨rfl, hinit, hend⟩ | ⟨x, rest, hshown, rfl⟩
    · change (seek t it).1 = false
      rw [seek, if_neg hmax, if_pos hinit, if_pos hend]
    · have hseek : interface.seek t it = (!(it.goTo t).ended, it.goTo t) := by
        change seek t it = _
        rw [seek, if_neg hmax, if_pos hshown.init, if_neg (by simp [hshown.ended])]
      have hleft := left_goTo hshown.yields (pairwise_cons.1 hshown.ascending).2 t
      have hfilter : (x :: rest.filter fun y => decide (time y ≤ it.maxTime)).tail.filter
          (fun y => decide (t ≤ time y)) =
          rest.filter fun y => decide (t ≤ time y ∧ time y ≤ it.maxTime) := by
        rw [tail_cons, filter_filter]
        exact filter_congr fun y _ => (Bool.decide_and _ _).symm
      rw [hfilter]
      generalize rest.filter (fun y => decide (t ≤ time y ∧ time y ≤ it.maxTime)) = l at hleft
      cases l with
      | nil =>
        change (interface.seek t it).1 = false
        rw [hseek, hleft.ended_of_nil]
        rfl
      | cons y l =>
        obtain ⟨hend, hat⟩ := hleft.at_eq
        refine ⟨?_, ?_, ?_⟩
        · rw [hseek, hend]
          rfl
        · rw [hseek]
          exact hat
        · rw [hseek]
          exact hleft.yields

section OfChunk

variable {junk : ℕ → Byte} {content : List Byte} {mint maxt : ℤ}

def rangeSamples (junk : ℕ → Byte) (content : List Byte) (mint maxt : ℤ) : List Sample :=
  (decodeChunk junk content).filter fun x => decide (mint ≤ time x ∧ time x ≤ maxt)

theorem left_goTo_ofChunk
    (hasc : (decodeChunk junk content).Pairwise fun x y => time x < time y) :
    ((ofChunk junk content mint maxt).goTo mint).Left (rangeSamples junk content mint maxt) :=
  left_goTo (XORIterator.yields_decodeChunk junk content) hasc mint

theorem left_after_ofChunk
    (hasc : (decodeChunk junk content).Pairwise fun x y => time x < time y) (k : ℕ) :
    (interface.after (k + 1) (ofChunk junk content mint maxt)).Left
      ((rangeSamples junk content mint maxt).drop k) :=
  Left.after (left_goTo_ofChunk hasc) k

theorem yields_ofChunk (hasc : (decodeChunk junk content).Pairwise fun x y => time x < time y) :
    interface.Yields (ofChunk junk content mint maxt) (rangeSamples junk content mint maxt) := by
  have hleft := @left_goTo_ofChunk junk content mint maxt hasc
  have hnext : (ofChunk junk content mint maxt).next =
      (!((ofChunk junk content mint maxt).goTo mint).ended,
        (ofChunk junk content mint maxt).goTo mint) := rfl
  cases hsamples : rangeSamples junk content mint maxt with
  | nil =>
    rw [hsamples] at hleft
    change taken TreeHeadIterator.next _ = none
    rw [taken, hnext, hleft.ended_of_nil]
    rfl
  | cons x l =>
    rw [hsamples] at hleft
    obtain ⟨hend, hat⟩ := hleft.at_eq
    refine ⟨(ofChunk junk content mint maxt).goTo mint, ?_, hat, hleft.yields⟩
    change taken TreeHeadIterator.next _ = _
    rw [taken, hnext, hend]
    rfl

theorem seeksTo_ofChunk (hasc : (decodeChunk junk content).Pairwise fun x y => time x < time y)
    (k : ℕ) (t : ℤ) :
    interface.SeeksTo t (interface.after k (ofChunk junk content mint maxt))
      (((rangeSamples junk content mint maxt).drop (k - 1)).tail.filter fun x =>
        decide (t ≤ time x)) := by
  cases k with
  | succ k => exact (left_after_ofChunk hasc k).seeksTo t
  | zero =>
    have hleft := @left_goTo_ofChunk junk content mint maxt hasc
    have hseeks := hleft.seeksTo t
    by_cases hmax : maxt < t
    · have hfalse : ∀ it : TreeHeadIterator, it.maxTime = maxt →
          (interface.seek t it).1 = false := by
        rintro it rfl
        change (seek t it).1 = false
        rw [seek, if_pos hmax]
      have hnil := SeriesIteratorInterface.SeeksTo.unique (l := []) (hfalse _ rfl) hseeks
      change interface.SeeksTo t _ ((rangeSamples junk content mint maxt).tail.filter _)
      rw [← hnil]
      exact hfalse _ rfl
    · -- A first `seek` goes to the range and then on as a later one does.
      have hseek : interface.seek t (ofChunk junk content mint maxt) =
          interface.seek t ((ofChunk junk content mint maxt).goTo mint) := by
        change seek t _ = seek t _
        rw [seek, seek, if_neg (show ¬ (ofChunk junk content mint maxt).maxTime < t from hmax),
          if_neg (show ¬ ((ofChunk junk content mint maxt).goTo mint).maxTime < t from hmax),
          if_pos hleft.init]
        rfl
      change interface.SeeksTo t (ofChunk junk content mint maxt)
        ((rangeSamples junk content mint maxt).tail.filter _)
      generalize (rangeSamples junk content mint maxt).tail.filter
        (fun x => decide (t ≤ time x)) = l at hseeks ⊢
      cases l with
      | nil => exact (congrArg Prod.fst hseek).trans hseeks
      | cons x l =>
        rw [SeriesIteratorInterface.SeeksTo, hseek]
        exact hseeks

end OfChunk

end TreeHeadIterator

/-! ## SlabArrayIterator -/

namespace SlabArrayIterator

/-- `seek` has lost its body. -/
def interface (junk : ℕ → Byte) : SeriesIteratorInterface SlabArrayIterator where
  seek _ it := (false, it)
  at' := at'
  next it :=
    match it.next junk with
    | none => (false, it)
    | some it => (true, it)

theorem taken_interface (junk : ℕ → Byte) :
    taken (interface junk).next = next junk := by
  funext it
  have hnext : (interface junk).next it =
      (match it.next junk with | none => (false, it) | some it => (true, it)) := rfl
  cases h : it.next junk with
  | none =>
    rw [taken, hnext, h]
    rfl
  | some it' =>
    rw [taken, hnext, h]
    rfl

def rangeSamples (junk : ℕ → Byte) (slabs : List (List Item)) (mint maxt : ℤ) (sgid mid : ℕ) :
    List Sample :=
  (seriesSamples junk slabs sgid mid).filter fun x => decide (mint ≤ time x ∧ time x ≤ maxt)

/-- The data of the series is in order, no chunk of it is empty, and no sample of the range is
before 0, where the constructor moves a negative `min_time`. -/
structure InOrder (junk : ℕ → Byte) (slabs : List (List Item)) (mint : ℤ) (sgid mid : ℕ) :
    Prop where
  filled : ∀ item ∈ slabs.flatten, FlushHead.headerIs sgid mid item = true →
    decodeChunk junk (item.chunk.take chunkSize) ≠ []
  ascending : (seriesSamples junk slabs sgid mid).Pairwise fun x y => time x < time y
  nonneg : ∀ x ∈ seriesSamples junk slabs sgid mid, mint ≤ time x → 0 ≤ time x

theorem InOrder.yields {junk : ℕ → Byte} {slabs : List (List Item)} {mint : ℤ} {sgid mid : ℕ}
    (h : InOrder junk slabs mint sgid mid) (maxt : ℤ) :
    (interface junk).Yields (ofSlabs slabs mint maxt sgid mid)
      (rangeSamples junk slabs mint maxt sgid mid) := by
  have hyields := @yields_content junk slabs sgid mid mint maxt (filled_ofSlabs h.filled)
    (by rw [content_ofSlabs]; exact h.ascending)
  have hfilter : (seriesSamples junk slabs sgid mid).filter
      (ofSlabs slabs mint maxt sgid mid).inRange = rangeSamples junk slabs mint maxt sgid mid := by
    refine filter_congr fun x hx => decide_eq_decide.2 (and_congr_left' ?_)
    change (if mint < 0 then 0 else mint) ≤ time x ↔ mint ≤ time x
    have hnonneg := h.nonneg x hx
    split_ifs <;> omega
  rw [content_ofSlabs, hfilter] at hyields
  rw [SeriesIteratorInterface.Yields, taken_interface]
  exact hyields

end SlabArrayIterator

/-! ## MergeSeriesIterator -/

/-- An iterator of a merge: what it shows, and what `seek(t)` keeps of the samples that are
left. -/
structure Source {σ : Type*} (I : SeriesIteratorInterface σ) where
  start : σ
  samples : List Sample
  kept : ℤ → List Sample → List Sample
  ascending : samples.Pairwise fun x y => time x < time y
  yields : I.Yields start samples
  kept_sublist : ∀ t l, (kept t l).Sublist l
  le_kept : ∀ t l, ∀ x ∈ kept t l, t ≤ time x
  seeksTo : ∀ k t, I.SeeksTo t (I.after k start) (kept t (samples.drop (k - 1)))

namespace Source

variable {σ : Type*} {I : SeriesIteratorInterface σ}

def rest (s : Source I) (passed : List ℤ) : List Sample :=
  s.samples.filter fun x => decide (time x ∉ passed)

def current (s : Source I) (passed : List ℤ) : Option σ :=
  if s.rest passed = [] then none
  else some (I.after (s.samples.length - (s.rest passed).length + 1) s.start)

theorem kept_nil (s : Source I) (t : ℤ) : s.kept t [] = [] :=
  sublist_nil.1 (s.kept_sublist t [])

theorem ascending_kept (s : Source I) (t : ℤ) (passed : List ℤ) :
    (s.kept t (s.rest passed)).Pairwise fun x y => time x < time y :=
  (s.ascending.filter _).sublist (s.kept_sublist t _)

variable {s : Source I} {passed : List ℤ} {x : Sample} {l : List Sample}

theorem drop_eq_rest (h : s.rest passed <:+ s.samples) :
    s.samples.drop (s.samples.length - (s.rest passed).length) = s.rest passed :=
  (suffix_iff_eq_drop.1 h).symm

theorem exists_index (h : s.rest passed <:+ s.samples) (hrest : s.rest passed = x :: l) :
    ∃ (n : ℕ) (hn : n < s.samples.length), s.samples.length = n + (l.length + 1) ∧
      s.samples[n] = x ∧ s.samples.drop (n + 1) = l := by
  have hdrop := drop_eq_rest h
  have hle := h.length_le
  rw [hrest] at hdrop hle
  rw [length_cons] at hdrop hle
  have hlt : s.samples.length - (l.length + 1) < s.samples.length := by omega
  rw [drop_eq_getElem_cons hlt, List.cons.injEq] at hdrop
  exact ⟨_, hlt, by omega, hdrop⟩

theorem current_eq (hrest : s.rest passed = x :: l) {n : ℕ}
    (hn : s.samples.length = n + (l.length + 1)) :
    s.current passed = some (I.after (n + 1) s.start) := by
  rw [current, if_neg (by simp [hrest]), hrest, hn, length_cons, Nat.add_sub_cancel]

theorem current_spec (h : s.rest passed <:+ s.samples) (hrest : s.rest passed = x :: l) :
    ∃ it, s.current passed = some it ∧ I.at' it = x ∧ I.Yields it l ∧
      ∀ t, I.SeeksTo t it (s.kept t (x :: l)) := by
  obtain ⟨n, hlt, hn, rfl, rfl⟩ := exists_index h hrest
  refine ⟨_, current_eq hrest hn, (s.yields.at_after hlt).2, s.yields.after hlt, fun t => ?_⟩
  have hseeks := s.seeksTo (n + 1) t
  rw [Nat.add_sub_cancel, drop_eq_getElem_cons hlt] at hseeks
  exact hseeks

theorem current_of_rest_nil (h : s.rest passed = []) : s.current passed = none :=
  if_pos h

theorem rest_append (s : Source I) (passed : List ℤ) (t : ℤ) :
    s.rest (passed ++ [t]) = (s.rest passed).filter fun x => decide (time x ≠ t) := by
  rw [rest, rest, filter_filter]
  refine filter_congr fun x _ => ?_
  rw [← Bool.decide_and]
  simp only [mem_append, mem_singleton, not_or, ne_eq, and_comm]

theorem current_append (h : s.rest passed <:+ s.samples)
    (hmin : ∀ y ∈ s.rest passed, time x ≤ time y) :
    ((s.current passed).bind fun it =>
      if decide ((I.at' it).1 = x.1) then taken I.next it else some it) =
      s.current (passed ++ [time x]) := by
  have hasc := s.ascending.sublist h.sublist
  cases hrest : s.rest passed with
  | nil =>
    rw [current_of_rest_nil hrest, current_of_rest_nil (by rw [rest_append, hrest]; rfl)]
    rfl
  | cons y tail =>
    rw [hrest] at hasc hmin
    obtain ⟨hlt, -⟩ := pairwise_cons.1 hasc
    have hxy := hmin y mem_cons_self
    obtain ⟨n, hn, hlen, hy, htail⟩ := exists_index h hrest
    have hkeep : tail.filter (fun z => decide (time z ≠ time x)) = tail :=
      filter_eq_self.2 fun z hz => decide_eq_true (hxy.trans_lt (hlt z hz)).ne'
    rw [current_eq hrest hlen, Option.bind_some, (s.yields.at_after hn).2, hy]
    by_cases heq : y.1 = x.1
    · have hrest' : s.rest (passed ++ [time x]) = tail := by
        rw [rest_append, hrest, filter_cons_of_neg (by simp [time, heq]), hkeep]
      rw [if_pos (decide_eq_true heq)]
      cases tail with
      | nil =>
        have hyields := s.yields.after hn
        rw [htail] at hyields
        rw [current_of_rest_nil hrest']
        exact hyields
      | cons z tail =>
        have hn' : n + 1 < s.samples.length := by
          rw [length_cons] at hlen
          omega
        rw [(s.yields.at_after hn').1]
        exact (current_eq hrest' (by rw [hlen, length_cons]; omega)).symm
    · have hne : time y ≠ time x := fun h => heq (MergeSeriesIterator.time_injective h)
      have hrest' : s.rest (passed ++ [time x]) = y :: tail := by
        rw [rest_append, hrest, filter_cons_of_pos (by simpa using hne), hkeep]
      rw [if_neg (by simpa using heq)]
      exact (current_eq hrest' hlen).symm

def passedTimes (l : List Sample) (k : ℕ) : List ℤ := (l.take k).map time

section Union

variable {ss : List (Source I)} {l : List Sample}

theorem mem_drop_iff (hasc : l.Pairwise fun x y => time x < time y) (k : ℕ) {x : Sample} :
    x ∈ l.drop k ↔ x ∈ l ∧ time x ∉ passedTimes l k := by
  rw [← take_append_drop k l] at hasc
  have hlt := (pairwise_append.1 hasc).2.2
  constructor
  · intro hx
    refine ⟨mem_of_mem_drop hx, fun hpassed => ?_⟩
    obtain ⟨y, hy, heq⟩ := mem_map.1 hpassed
    exact (hlt y hy x hx).ne heq
  · rintro ⟨hx, hnot⟩
    rw [← take_append_drop k l] at hx
    exact (mem_append.1 hx).resolve_left fun h => hnot (mem_map_of_mem h)

theorem isUnion_rest (h : LastUnion.IsUnion time (ss.map samples) l) (k : ℕ) :
    LastUnion.IsUnion time (ss.map fun s => s.rest (passedTimes l k)) (l.drop k) where
  ascending := h.ascending.sublist (drop_sublist k l)
  mem_iff x := by
    have hmap : (ss.map fun s => s.rest (passedTimes l k)) =
        (ss.map samples).map (List.filter fun y => decide (time y ∉ passedTimes l k)) := by
      rw [map_map]
      rfl
    rw [mem_drop_iff h.ascending, h.mem_iff, hmap,
      last_map_filter (· ∉ passedTimes l k)]

theorem rest_suffix (h : LastUnion.IsUnion time (ss.map samples) l) (k : ℕ) {s : Source I}
    (hs : s ∈ ss) : s.rest (passedTimes l k) <:+ s.samples := by
  have hpassed : ∀ {x y : Sample}, x ∈ s.samples ∧ y ∈ s.samples ∧ time x < time y →
      decide (time y ∈ passedTimes l k) = true → decide (time x ∈ passedTimes l k) = true := by
    rintro x y ⟨hx, -, hlt⟩ hy
    obtain ⟨x', hlast, hx'⟩ := @exists_last _ _ time _ _ (mem_map_of_mem hs) x hx
    obtain ⟨y', hy', hyy⟩ := mem_map.1 (of_decide_eq_true hy)
    have hmem := (h.mem_iff x').2 hlast
    have hasc := h.ascending
    rw [← take_append_drop k l] at hmem hasc
    refine decide_eq_true (mem_map.2 ⟨x', (mem_append.1 hmem).resolve_right ?_, hx'⟩)
    intro hdrop
    have hlt' := (pairwise_append.1 hasc).2.2 y' hy' x' hdrop
    omega
  have hrest : s.rest (passedTimes l k) =
      s.samples.dropWhile fun x => decide (time x ∈ passedTimes l k) := by
    rw [RangeScan.dropWhile_eq_filter (List.Pairwise.and_mem.1 s.ascending) hpassed, rest]
    simp only [decide_not]
  rw [hrest]
  exact dropWhile_suffix _

end Union

end Source

open Source

namespace MergeSeriesIterator

variable {σ : Type*} {I : SeriesIteratorInterface σ}

def Holds (I : SeriesIteratorInterface σ) : Option σ → List Sample → Prop
  | none, l => l = []
  | some it, l => ∃ tail, l = I.at' it :: tail ∧ I.Yields it tail

theorem remaining_of_holds {α : Type*} {ss : List α} {cur : α → Option σ}
    {lst : α → List Sample} (h : ∀ s ∈ ss, Holds I (cur s) (lst s)) :
    Remaining I (ss.filterMap cur) ((ss.map lst).filter fun l => !l.isEmpty) := by
  induction ss with
  | nil => exact List.Forall₂.nil
  | cons s ss ih =>
    rw [forall_mem_cons] at h
    obtain ⟨hs, hss⟩ := h
    rw [map_cons]
    cases hcur : cur s with
    | none =>
      rw [hcur] at hs
      rw [filterMap_cons_none hcur, show lst s = [] from hs,
        filter_cons_of_neg (by simp)]
      exact ih hss
    | some it =>
      rw [hcur] at hs
      obtain ⟨tail, hlst, hyields⟩ := hs
      rw [filterMap_cons_some hcur, hlst, filter_cons_of_pos (by simp)]
      exact List.Forall₂.cons ⟨tail, rfl, hyields⟩ (ih hss)

theorem holds_seek {t : ℤ} {s : σ} {l : List Sample} (h : I.SeeksTo t s l) :
    Holds I (taken (I.seek t) s) l := by
  cases l with
  | nil =>
    rw [taken, show (I.seek t s).1 = false from h, if_neg Bool.false_ne_true]
    rfl
  | cons x l =>
    rw [taken, h.1, if_pos rfl]
    exact ⟨l, by rw [h.2.1], h.2.2⟩

theorem holds_current {s : Source I} {passed : List ℤ} (h : s.rest passed <:+ s.samples) :
    Holds I (s.current passed) (s.rest passed) := by
  cases hrest : s.rest passed with
  | nil =>
    rw [current_of_rest_nil hrest]
    rfl
  | cons x l =>
    obtain ⟨it, hcurrent, hat, hyields, -⟩ := current_spec h hrest
    rw [hcurrent]
    exact ⟨l, by rw [hat], hyields⟩

structure Stands (ss : List (Source I)) (passed : List ℤ) (m : MergeSeriesIterator σ) : Prop where
  iters : m.iters = ss.filterMap fun s => s.current passed
  picked : m.iters ≠ [] → m.init = true ∧ Picked I m.iters m.id m.at'

theorem stands_pick {ss : List (Source I)} {passed : List ℤ} {iters : List σ}
    (h : iters = ss.filterMap fun s => s.current passed) (m : MergeSeriesIterator σ) :
    Stands ss passed (m.pick I iters).2 := by
  cases iters with
  | nil => exact ⟨h, fun hne => absurd rfl hne⟩
  | cons it iters =>
    obtain ⟨m', heq, hiters, hinit, hpicked⟩ := pick_cons (I := I) m it iters
    rw [heq]
    exact ⟨hiters.trans h, fun _ => ⟨hinit, hiters ▸ hpicked⟩⟩

variable {ss : List (Source I)} {l : List Sample}

theorem stands_first (ss : List (Source I)) :
    Stands ss [] ((ofIters (ss.map start)).next I).2 := by
  have hcurrent : ∀ s : Source I, taken I.next s.start = s.current [] := by
    intro s
    have hrest : s.rest [] = s.samples := filter_eq_self.2 fun _ _ => by simp
    cases hsamples : s.samples with
    | nil =>
      have hyields := s.yields
      rw [hsamples] at hyields hrest
      rw [current_of_rest_nil hrest]
      exact hyields
    | cons x l =>
      have hlt : 0 < s.samples.length := by
        rw [hsamples]
        exact Nat.succ_pos _
      rw [hsamples] at hrest
      rw [current_eq hrest (n := 0) (by rw [hsamples, length_cons, Nat.zero_add])]
      exact (s.yields.at_after hlt).1
  rw [MergeSeriesIterator.next]
  by_cases hempty : ss.map start = []
  · rw [map_eq_nil_iff] at hempty
    subst hempty
    exact ⟨rfl, fun hne => absurd rfl hne⟩
  · rw [if_neg (by simpa [ofIters] using hempty)]
    refine stands_pick ?_ _
    change (ss.map start).filterMap (taken I.next) = _
    rw [filterMap_map]
    exact filterMap_congr fun s _ => hcurrent s

variable {k : ℕ} {m : MergeSeriesIterator σ}

theorem Stands.remaining (hunion : LastUnion.IsUnion time (ss.map samples) l)
    (h : Stands ss (passedTimes l k) m) :
    Remaining I m.iters
      ((ss.map fun s => s.rest (passedTimes l k)).filter fun l => !l.isEmpty) := by
  rw [h.iters]
  exact remaining_of_holds fun s hs => holds_current (rest_suffix hunion k hs)

theorem Stands.drop_eq (hunion : LastUnion.IsUnion time (ss.map samples) l)
    (h : Stands ss (passedTimes l k) m) :
    (m.iters = [] ∧ l.drop k = []) ∨
      (m.iters ≠ [] ∧ l.drop k = m.at' :: l.drop (k + 1) ∧
        ∀ s ∈ ss, ∀ y ∈ s.rest (passedTimes l k), time m.at' ≤ time y) := by
  have hrem := h.remaining hunion
  have hrest := isUnion_rest hunion k
  by_cases hempty : m.iters = []
  · refine Or.inl ⟨hempty, eq_nil_iff_forall_not_mem.2 fun x hx => ?_⟩
    rw [hempty] at hrem
    have hlast := last_filter.2 ((hrest.mem_iff x).1 hx)
    rw [forall₂_nil_left_iff.1 hrem] at hlast
    exact not_last_nil x hlast
  · obtain ⟨-, hpicked⟩ := h.picked hempty
    have hasc : ∀ l' ∈ (ss.map fun s => s.rest (passedTimes l k)).filter
        fun l => !l.isEmpty, l'.Pairwise fun x y => time x < time y := by
      intro l' hl'
      obtain ⟨s, -, rfl⟩ := mem_map.1 (mem_of_mem_filter hl')
      exact s.ascending.filter _
    obtain ⟨hlast, hmin⟩ := hrem.last hasc hpicked
    have hmin' : ∀ s ∈ ss, ∀ y ∈ s.rest (passedTimes l k), time m.at' ≤ time y := by
      intro s hs y hy
      refine hmin _ (mem_filter.2 ⟨mem_map_of_mem hs, ?_⟩) y hy
      rw [Bool.not_eq_true', isEmpty_eq_false_iff]
      exact ne_nil_of_mem hy
    refine Or.inr ⟨hempty, ?_, hmin'⟩
    have hmem := (hrest.mem_iff m.at').2 (last_filter.1 hlast)
    have hasc' := hrest.ascending
    rw [← tail_drop]
    cases hdrop : l.drop k with
    | nil =>
      rw [hdrop] at hmem
      exact absurd hmem not_mem_nil
    | cons y tail =>
      have hy : y ∈ l.drop k := hdrop ▸ mem_cons_self
      rw [hdrop] at hmem hasc'
      rcases mem_cons.1 hmem with heq | hmem
      · rw [heq, tail_cons]
      · obtain ⟨l', hl', hyl'⟩ := ((hrest.mem_iff y).1 hy).exists_mem
        obtain ⟨s, hs, rfl⟩ := mem_map.1 hl'
        have hle := hmin' s hs y hyl'
        have hlt := (pairwise_cons.1 hasc').1 _ hmem
        omega

theorem passedTimes_succ {x : Sample} (h : l.drop k = x :: l.drop (k + 1)) :
    passedTimes l (k + 1) = passedTimes l k ++ [time x] := by
  have hx : l[k]? = some x := by rw [← head?_drop, h, head?_cons]
  rw [passedTimes, take_add_one, hx, map_append]
  rfl

theorem Stands.next (hunion : LastUnion.IsUnion time (ss.map samples) l)
    (h : Stands ss (passedTimes l k) m) :
    Stands ss (passedTimes l (k + 1)) (m.next I).2 := by
  rcases h.drop_eq hunion with ⟨hempty, hdrop⟩ | ⟨hne, hdrop, hmin⟩
  · have hlen := drop_eq_nil_iff.1 hdrop
    have hpassed : passedTimes l (k + 1) = passedTimes l k := by
      rw [passedTimes, passedTimes, take_of_length_le hlen,
        take_of_length_le (Nat.le_succ_of_le hlen)]
    rw [next_of_empty hempty, hpassed]
    exact h
  · obtain ⟨hinit, hpicked⟩ := h.picked hne
    have hids := nextIds_findIdxs (I := I) (fun it => decide ((I.at' it).1 = m.at'.1)) [] m.iters 0
    rw [nil_append, nil_append, length_nil, Nat.zero_add, ← hpicked.id_eq] at hids
    rw [MergeSeriesIterator.next, if_neg (by simpa using hne), if_pos hinit]
    dsimp only
    rw [hids]
    refine stands_pick ?_ m
    rw [h.iters, filterMap_filterMap, passedTimes_succ hdrop]
    exact filterMap_congr fun s hs =>
      current_append (rest_suffix hunion k hs) (hmin s hs)

theorem stands_after (hunion : LastUnion.IsUnion time (ss.map samples) l) (k : ℕ) :
    Stands ss (passedTimes l k)
      ((interface I).after (k + 1) (ofIters (ss.map start))) := by
  induction k with
  | zero => exact stands_first ss
  | succ k ih =>
    rw [after_succ]
    exact ih.next hunion

theorem exists_seeksTo {t : ℤ} {cur : Source I → Option σ} {lst : Source I → List Sample}
    (hiters : m.iters = ss.filterMap cur)
    (hseeks : ∀ s ∈ ss, Holds I ((cur s).bind (taken (I.seek t))) (lst s))
    (hasc : ∀ s ∈ ss, (lst s).Pairwise fun x y => time x < time y) :
    ∃ l, LastUnion.IsUnion time (ss.map lst) l ∧ (interface I).SeeksTo t m l := by
  have hrem := remaining_of_holds hseeks
  have hnil : (ss.map lst).filter (fun l => !l.isEmpty) = [] →
      LastUnion.IsUnion time (ss.map lst) [] := fun h =>
    isUnion_filter (h ▸ isUnion_nil)
  rw [← filterMap_filterMap, ← hiters] at hrem
  by_cases hempty : m.iters = []
  · rw [hempty] at hrem
    refine ⟨[], hnil (forall₂_nil_left_iff.1 hrem), ?_⟩
    change (seek I t m).1 = false
    rw [seek, hempty]
    rfl
  · have hseek : (interface I).seek t m =
        m.pick I (m.iters.filterMap (taken (I.seek t))) := by
      change seek I t m = _
      rw [seek, if_neg (by simpa using hempty)]
    have hasc' : ∀ l ∈ (ss.map lst).filter fun l => !l.isEmpty,
        l.Pairwise fun x y => time x < time y := by
      intro l hl
      obtain ⟨s, hs, rfl⟩ := mem_map.1 (mem_of_mem_filter hl)
      exact hasc s hs
    rcases hrem.pick hasc' m with ⟨hfalse, -, hls⟩ | ⟨htrue, hlast, hmin, hpending⟩
    · exact ⟨[], hnil hls, (congrArg Prod.fst hseek).trans hfalse⟩
    · obtain ⟨l, hyields, hunion, -⟩ := hpending.merges
      refine ⟨_ :: l, isUnion_filter (LastUnion.IsUnion.cons hasc' hlast hmin hunion), ?_⟩
      rw [SeriesIteratorInterface.SeeksTo, hseek]
      exact ⟨htrue, rfl, hyields⟩

theorem exists_seeksTo_after (hunion : LastUnion.IsUnion time (ss.map samples) l) (k : ℕ)
    (t : ℤ) :
    ∃ l', LastUnion.IsUnion time
        (ss.map fun s => s.kept t (s.rest (passedTimes l (k - 1)))) l' ∧
      (interface I).SeeksTo t ((interface I).after k (ofIters (ss.map start))) l' := by
  have hasc : ∀ passed, ∀ s ∈ ss, (s.kept t (s.rest passed)).Pairwise
      fun x y => time x < time y := fun passed s _ => s.ascending_kept t passed
  cases k with
  | zero =>
    refine @exists_seeksTo _ I ss _ t (fun s => some s.start) _ ?_ (fun s _ => ?_) (hasc _)
    · change ss.map start = _
      rw [← filterMap_eq_map]
      rfl
    · have hrest : s.rest (passedTimes l (0 - 1)) = s.samples :=
        filter_eq_self.2 fun _ _ => by simp [passedTimes]
      rw [hrest]
      exact holds_seek (s.seeksTo 0 t)
  | succ k =>
    refine exists_seeksTo (stands_after hunion k).iters (fun s hs => ?_) (hasc _)
    rw [Nat.add_sub_cancel]
    cases hrest : s.rest (passedTimes l k) with
    | nil =>
      rw [current_of_rest_nil hrest, s.kept_nil]
      rfl
    | cons x l' =>
      obtain ⟨it, hcurrent, -, -, hseeks⟩ :=
        current_spec (rest_suffix hunion k hs) hrest
      rw [hcurrent]
      exact holds_seek (hseeks t)

theorem seekMeets_merge_iff (hunion : LastUnion.IsUnion time (ss.map samples) l) (k : ℕ)
    (t : ℤ) :
    (interface I).SeekMeets (ofIters (ss.map start)) l k t ↔
      ∀ x ∈ l.drop (k - 1), t ≤ time x → LastUnion.Last time
        (ss.map fun s => s.kept t (s.rest (passedTimes l (k - 1)))) x := by
  obtain ⟨l', hl', hseeks⟩ := exists_seeksTo_after hunion k t
  have hmem : ∀ {x}, x ∈ (l.drop (k - 1)).filter (fun x => decide (t ≤ time x)) ↔
      x ∈ l.drop (k - 1) ∧ t ≤ time x := by
    intro x
    rw [mem_filter, decide_eq_true_eq]
  constructor
  · intro h x hx ht
    rw [hseeks.unique h] at hl'
    exact (hl'.mem_iff x).1 (hmem.2 ⟨hx, ht⟩)
  · intro h
    have heq : l' = (l.drop (k - 1)).filter fun x => decide (t ≤ time x) := by
      have hrest := isUnion_rest hunion (k - 1)
      have : Std.Asymm fun x y : Sample => time x < time y := ⟨fun _ _ => lt_asymm⟩
      have : Std.Irrefl fun x y : Sample => time x < time y := ⟨fun _ => lt_irrefl _⟩
      refine hl'.ascending.eq_of_mem_iff (hrest.ascending.filter _) fun u => ?_
      rw [hmem, hl'.mem_iff]
      refine ⟨fun hu => ?_, fun hu => h u hu.1 hu.2⟩
      -- The union has a sample at the time of `u`, and it is kept as well.
      obtain ⟨l₁, hl₁, hul₁⟩ := hu.exists_mem
      obtain ⟨s, hs, rfl⟩ := mem_map.1 hl₁
      have hut := s.le_kept t _ u hul₁
      obtain ⟨x, hx, hxu⟩ := @exists_last _ _ time _ _
        (mem_map_of_mem (f := fun s => s.rest (passedTimes l (k - 1))) hs) u
        ((s.kept_sublist t _).subset hul₁)
      have hxl := (hrest.mem_iff x).2 hx
      have hkept := h x hxl (hxu ▸ hut)
      have hux : u = x := by
        refine hu.unique (fun l₂ hl₂ => ?_) hkept hxu.symm
        obtain ⟨s', -, rfl⟩ := mem_map.1 hl₂
        exact s'.ascending_kept t _
      exact hux ▸ ⟨hxl, hxu ▸ hut⟩
    rw [SeriesIteratorInterface.SeekMeets, ← heq]
    exact hseeks

end MergeSeriesIterator

/-! ## The iterators of a series -/

/-- What a part of a series is read from: the chunk in memory, or an array of slabs. -/
inductive SeriesPart
  | head (content : List Byte)
  | slabs (arr : List (List Item))

namespace SeriesPart

def interface (junk : ℕ → Byte) :
    SeriesIteratorInterface (TreeHeadIterator ⊕ SlabArrayIterator) :=
  TreeHeadIterator.interface.sum (SlabArrayIterator.interface junk)

section

variable (junk : ℕ → Byte) (mint maxt : ℤ) (sgid mid : ℕ)

def iterator : SeriesPart → TreeHeadIterator ⊕ SlabArrayIterator
  | head content => Sum.inl (TreeHeadIterator.ofChunk junk content mint maxt)
  | slabs arr => Sum.inr (SlabArrayIterator.ofSlabs arr mint maxt sgid mid)

def samples : SeriesPart → List Sample
  | head content => TreeHeadIterator.rangeSamples junk content mint maxt
  | slabs arr => SlabArrayIterator.rangeSamples junk arr mint maxt sgid mid

def InOrder : SeriesPart → Prop
  | head content => (decodeChunk junk content).Pairwise fun x y => time x < time y
  | slabs arr => SlabArrayIterator.InOrder junk arr mint sgid mid

end

/-- What `seek(t)` keeps: the chunk in memory loses its current sample, a slab array everything. -/
def kept : SeriesPart → ℤ → List Sample → List Sample
  | head _, t, l => l.tail.filter fun x => decide (t ≤ time x)
  | slabs _, _, _ => []

theorem kept_sublist (p : SeriesPart) (t : ℤ) (l : List Sample) : (p.kept t l).Sublist l := by
  cases p with
  | head _ => exact List.filter_sublist.trans (tail_sublist l)
  | slabs _ => exact nil_sublist l

theorem le_kept (p : SeriesPart) (t : ℤ) (l : List Sample) {x : Sample} (hx : x ∈ p.kept t l) :
    t ≤ time x := by
  cases p with
  | head _ => exact of_decide_eq_true (mem_filter.1 hx).2
  | slabs _ => exact absurd hx not_mem_nil

variable {junk : ℕ → Byte} {mint : ℤ} {sgid mid : ℕ} {p : SeriesPart}

theorem InOrder.ascending (h : p.InOrder junk mint sgid mid) (maxt : ℤ) :
    (p.samples junk mint maxt sgid mid).Pairwise fun x y => time x < time y := by
  cases p with
  | head content => exact List.Pairwise.filter _ h
  | slabs arr => exact List.Pairwise.filter _ h.ascending

theorem InOrder.yields (h : p.InOrder junk mint sgid mid) (maxt : ℤ) :
    (interface junk).Yields (p.iterator junk mint maxt sgid mid)
      (p.samples junk mint maxt sgid mid) := by
  cases p with
  | head content =>
    exact embeds_inl.yields (TreeHeadIterator.yields_ofChunk h)
  | slabs arr =>
    exact embeds_inr.yields (SlabArrayIterator.InOrder.yields h maxt)

theorem InOrder.seeksTo (h : p.InOrder junk mint sgid mid) (maxt : ℤ) (k : ℕ) (t : ℤ) :
    (interface junk).SeeksTo t ((interface junk).after k (p.iterator junk mint maxt sgid mid))
      (p.kept t ((p.samples junk mint maxt sgid mid).drop (k - 1))) := by
  cases p with
  | head content =>
    have hembeds : SeriesIteratorInterface.Embeds TreeHeadIterator.interface (interface junk)
      Sum.inl := embeds_inl
    rw [iterator, hembeds.after]
    exact hembeds.seeksTo (TreeHeadIterator.seeksTo_ofChunk h k t)
  | slabs arr =>
    have hembeds : SeriesIteratorInterface.Embeds (SlabArrayIterator.interface junk)
      (interface junk) Sum.inr := embeds_inr
    rw [iterator, hembeds.after]
    exact rfl

def source (p : SeriesPart) (h : p.InOrder junk mint sgid mid) (maxt : ℤ) :
    Source (interface junk) where
  start := p.iterator junk mint maxt sgid mid
  samples := p.samples junk mint maxt sgid mid
  kept := p.kept
  ascending := h.ascending maxt
  yields := h.yields maxt
  kept_sublist := p.kept_sublist
  le_kept t l _ hx := p.le_kept t l hx
  seeksTo := h.seeksTo maxt

end SeriesPart

/-- The head iterator meets the contract of `seek` if and only if the sample it would start with
is before `t`, or there is none; the slab array iterator if and only if no sample from `t` on is
left; and their merge if and only if every sample from `t` on that is left is the one of the last
iterator that keeps a sample of its time. -/
theorem seriesSeek_meets_iff (junk : ℕ → Byte) (mint maxt : ℤ) (sgid mid k : ℕ) (t : ℤ) :
    (∀ content, ((decodeChunk junk content).Pairwise fun x y => time x < time y) →
      (TreeHeadIterator.interface.SeekMeets (TreeHeadIterator.ofChunk junk content mint maxt)
          (TreeHeadIterator.rangeSamples junk content mint maxt) k t ↔
        ∀ x ∈ ((TreeHeadIterator.rangeSamples junk content mint maxt).drop (k - 1)).head?,
          time x < t)) ∧
    (∀ arr, SlabArrayIterator.InOrder junk arr mint sgid mid →
      ((SlabArrayIterator.interface junk).SeekMeets
          (SlabArrayIterator.ofSlabs arr mint maxt sgid mid)
          (SlabArrayIterator.rangeSamples junk arr mint maxt sgid mid) k t ↔
        ∀ x ∈ (SlabArrayIterator.rangeSamples junk arr mint maxt sgid mid).drop (k - 1),
          time x < t)) ∧
    ∀ parts : List SeriesPart, (∀ p ∈ parts, p.InOrder junk mint sgid mid) → ∀ l,
      LastUnion.IsUnion time (parts.map (SeriesPart.samples junk mint maxt sgid mid)) l →
      ((MergeSeriesIterator.interface (SeriesPart.interface junk)).SeekMeets
          (MergeSeriesIterator.ofIters (parts.map (SeriesPart.iterator junk mint maxt sgid mid)))
          l k t ↔
        ∀ x ∈ l.drop (k - 1), t ≤ time x → LastUnion.Last time
          (parts.map fun p => p.kept t ((p.samples junk mint maxt sgid mid).filter fun y =>
            decide (time y ∉ (l.take (k - 1)).map time))) x) := by
  refine ⟨fun content hasc => ?_, fun arr harr => ?_, fun parts hparts l hl => ?_⟩
  · have hseeks := @TreeHeadIterator.seeksTo_ofChunk junk content mint maxt hasc k t
    rw [SeriesIteratorInterface.SeekMeets]
    generalize (TreeHeadIterator.rangeSamples junk content mint maxt).drop (k - 1) = l at hseeks ⊢
    cases l with
    | nil => exact iff_of_true hseeks (by simp)
    | cons x l =>
      have hhead : (∀ y ∈ (x :: l).head?, time y < t) ↔ time x < t := by simp
      rw [hhead]
      constructor
      · intro hmeets
        have heq := hmeets.unique hseeks
        by_contra ht
        rw [filter_cons_of_pos (by simpa using ht), tail_cons] at heq
        exact absurd (congrArg List.length heq) (Nat.succ_ne_self _)
      · intro ht
        rw [filter_cons_of_neg (by simpa using ht)]
        exact hseeks
  · rw [SeriesIteratorInterface.SeekMeets]
    generalize (SlabArrayIterator.rangeSamples junk arr mint maxt sgid mid).drop (k - 1) = l
    constructor
    · intro hmeets x hx
      have hfalse : (SlabArrayIterator.interface junk).SeeksTo t ((SlabArrayIterator.interface
        junk).after k (SlabArrayIterator.ofSlabs arr mint maxt sgid mid)) [] := rfl
      have hx' := filter_eq_nil_iff.1 (hmeets.unique hfalse) x hx
      simpa using hx'
    · intro h
      rw [filter_eq_nil_iff.2 fun x hx => by simpa using h x hx]
      exact rfl
  · have hmap : ∀ {β : Type} (f : Source (SeriesPart.interface junk) → β) (g : SeriesPart → β),
        (∀ p (hp : SeriesPart.InOrder junk mint sgid mid p), f (p.source hp maxt) = g p) →
        (parts.pmap (fun p hp => p.source hp maxt) hparts).map f = parts.map g := by
      intro β f g hfg
      rw [map_pmap, ← pmap_eq_map hparts]
      exact pmap_congr_left parts fun p _ hp _ => hfg p hp
    rw [← hmap samples (SeriesPart.samples junk mint maxt sgid mid) fun p hp => rfl] at hl
    have hmeets := MergeSeriesIterator.seekMeets_merge_iff hl k t
    rw [hmap start (SeriesPart.iterator junk mint maxt sgid mid) fun p hp => rfl,
      hmap (fun s => s.kept t (s.rest (passedTimes l (k - 1)))) (fun p =>
        p.kept t ((p.samples junk mint maxt sgid mid).filter fun y =>
          decide (time y ∉ (l.take (k - 1)).map time))) fun p hp => rfl] at hmeets
    exact hmeets

/-- A chunk with the samples `(5, 0.0)` and `(7, 0.0)`. -/
def twoSamples : List Byte :=
  encodeValueHeader 1 1 ++ [0#8, 2#8, 10#8] ++ List.replicate 8 0#8 ++ [4#8, 0#8]

/-- At the first of the samples 5 and 7 a `seek(6)` of the chunk, or of a merge with a slab that
has the samples as well, goes to the second; in a range up to 6 the slab has none for it. -/
theorem seriesSeek_meets_second :
    (TreeHeadIterator.interface.SeekMeets (TreeHeadIterator.ofChunk (fun _ => 0#8) twoSamples 0 100)
      [(5#64, 0#64), (7#64, 0#64)] 1 6) ∧
    ((SlabArrayIterator.interface fun _ => 0#8).SeekMeets
      (SlabArrayIterator.ofSlabs [mixedSlab] 0 6 1 1) [(5#64, 0#64)] 1 6) ∧
    (MergeSeriesIterator.interface (SeriesPart.interface fun _ => 0#8)).SeekMeets
      (MergeSeriesIterator.ofIters ([SeriesPart.slabs [mixedSlab], SeriesPart.head twoSamples].map
        (SeriesPart.iterator (fun _ => 0#8) 0 100 1 1))) [(5#64, 0#64), (7#64, 0#64)] 1 6 := by
  have hhead : decodeChunk (fun _ => 0#8) twoSamples = [(5#64, 0#64), (7#64, 0#64)] := by
    decide +kernel
  have hslab : SlabArrayIterator.seriesSamples (fun _ => 0#8) [mixedSlab] 1 1 =
      [(5#64, 0#64), (7#64, 0#64)] := by
    decide +kernel
  have horder : SlabArrayIterator.InOrder (fun _ => 0#8) [mixedSlab] 0 1 1 :=
    ⟨by decide +kernel, by rw [hslab]; decide +kernel, fun _ _ h => h⟩
  have hunion : LastUnion.IsUnion time
      [[(5#64, 0#64), (7#64, 0#64)], [(5#64, 0#64), (7#64, 0#64)]] [(5#64, 0#64), (7#64, 0#64)] := by
    refine ⟨by decide +kernel, fun x => ?_⟩
    rw [last_cons, last_cons, or_iff_right (not_last_nil x)]
    exact ⟨fun hx => Or.inl ⟨hx, fun _ h => absurd h not_mem_nil⟩, fun h => h.elim And.left And.left⟩
  have hasc : (decodeChunk (fun _ => 0#8) twoSamples).Pairwise fun x y => time x < time y := by
    rw [hhead]
    decide +kernel
  have hrange : TreeHeadIterator.rangeSamples (fun _ => 0#8) twoSamples 0 100 =
      [(5#64, 0#64), (7#64, 0#64)] := by
    rw [TreeHeadIterator.rangeSamples, hhead]
    decide +kernel
  have hrange' : SlabArrayIterator.rangeSamples (fun _ => 0#8) [mixedSlab] 0 100 1 1 =
      [(5#64, 0#64), (7#64, 0#64)] := by
    rw [SlabArrayIterator.rangeSamples, hslab]
    decide +kernel
  have hshort : SlabArrayIterator.rangeSamples (fun _ => 0#8) [mixedSlab] 0 6 1 1 =
      [(5#64, 0#64)] := by
    rw [SlabArrayIterator.rangeSamples, hslab]
    decide +kernel
  obtain ⟨hhead', -, hmerge⟩ := seriesSeek_meets_iff (fun _ => 0#8) 0 100 1 1 1 6
  have hslab' := (seriesSeek_meets_iff (fun _ => 0#8) 0 6 1 1 1 6).2.1 [mixedSlab] horder
  refine ⟨?_, ?_, (hmerge _ ?_ _ ?_).2 ?_⟩
  · rw [← hrange, hhead' twoSamples hasc, hrange]
    intro x hx
    obtain rfl : (5#64, 0#64) = x := Option.some.inj hx
    decide +kernel
  · rw [← hshort, hslab', hshort]
    exact forall_mem_singleton.2 (by decide +kernel)
  · rw [forall_mem_cons, forall_mem_singleton]
    exact ⟨horder, hasc⟩
  · rw [map_cons, map_singleton, SeriesPart.samples, SeriesPart.samples, hrange, hrange']
    exact hunion
  · -- the chunk keeps the sample at 7, the slab nothing
    rw [map_cons, map_singleton, SeriesPart.samples, SeriesPart.samples, hrange, hrange']
    intro x hx ht
    have hlast : LastUnion.Last time [[], [(7#64, 0#64)]] (7#64, 0#64) :=
      last_cons.2 (Or.inl (last_cons.2 (Or.inr ⟨mem_singleton_self _, nofun⟩)))
    rcases mem_cons.1 hx with rfl | hx
    · exact absurd ht (by decide +kernel)
    · obtain rfl := mem_singleton.1 hx
      exact hlast

/-- The chunk holds the sample at 5 and the slab those at 5 and 7. A `seek(5)` of either iterator,
or of their merge, finds nothing. -/
theorem seriesSeek_misses :
    TreeHeadIterator.rangeSamples (fun _ => 0#8)
        (SlabArrayIterator.mixedSlab.headD ⟨0, []⟩).chunk 0 100 = [(5#64, 0#64)] ∧
      (TreeHeadIterator.seek 5 (TreeHeadIterator.ofChunk (fun _ => 0#8)
        (SlabArrayIterator.mixedSlab.headD ⟨0, []⟩).chunk 0 100)).1 = false ∧
      SlabArrayIterator.rangeSamples (fun _ => 0#8) [mixedSlab] 0 100 1 1 =
        [(5#64, 0#64), (7#64, 0#64)] ∧
      ((SlabArrayIterator.interface fun _ => 0#8).seek 5
        (SlabArrayIterator.ofSlabs [mixedSlab] 0 100 1 1)).1 = false ∧
      ((MergeSeriesIterator.interface (SeriesPart.interface fun _ => 0#8)).seek 5
        (MergeSeriesIterator.ofIters ([SeriesPart.slabs [mixedSlab],
          SeriesPart.head (SlabArrayIterator.mixedSlab.headD ⟨0, []⟩).chunk].map
          (SeriesPart.iterator (fun _ => 0#8) 0 100 1 1)))).1 = false := by
  refine ⟨by decide +kernel, by decide +kernel, by decide +kernel, rfl, by decide +kernel⟩

end PromTCS
